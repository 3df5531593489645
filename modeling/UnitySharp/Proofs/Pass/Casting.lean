import UnitySharp.Proofs.Pass.Rewriting
import UnitySharp.Proofs.Pass.Settling
import UnitySharp.Proofs.Tree.Lineage

/-!
# Casts as a function on terms

Putting in casts is a recursion that carries along the type that a `return` has to meet, which is
declared by the method around it.  That type must not change while the method is gone through, so no
operator may stand for a return type.
-/

namespace UnitySharp

open List

variable {face : Face} {known : NodeId → Prop} {t : Tree} {id c : NodeId} {origin : Option NodeId}
  {kids : Kids Term} {role : Role} {term : Term}

/-! ## Types and casts of terms -/

def Face.withType (face : Face) (type : Option Ty) : Face :=
  if face.shape.type?.isSome then { face with shape := face.shape.withType type }
  else { face with givenType := some type }

theorem Node.face_withType (node : Node) (type : Option Ty) :
    (node.withType type).face = node.face.withType type := by
  unfold Node.withType Face.withType
  split
  · rename_i hsome
    rw [if_pos (show node.face.shape.type?.isSome = true from hsome)]
    rfl
  · rename_i hnone
    rw [if_neg (show ¬node.face.shape.type?.isSome = true from hnone)]
    rfl

theorem kind_face_withType (face : Face) (type : Option Ty) :
    (face.withType type).shape.kind = face.shape.kind := by
  unfold Face.withType
  split
  · exact Tree.kind_withType _ _
  · rfl

namespace Term

def type (term : Term) : Option Ty :=
  term.face.type?.join

def cast (type : Ty) (operand : Term) : Term :=
  .node none ⟨.cast (some type), none, none, []⟩
    [(.typeRef, .one (.node none ⟨.typeRef (some type), none, none, []⟩ [])),
      (.operand, .one operand)]

theorem type_cast (type : Ty) (operand : Term) : (cast type operand).type = some type := rfl

end Term

def kidType (role : Role) (kids : Kids Term) : Option Ty :=
  (kidsAt role kids).one?.bind Term.type

def changeRole (role : Role) (f : Term → Term) (kids : Kids Term) : Kids Term :=
  setKids role ((kidsAt role kids).map f) kids

namespace Casts

/-! ## What becomes of a node -/

def converted (conversion : Conversion) (target : Option Ty) (term : Term) : Term :=
  match target with
  | some type => if conversion.needed (some type) term.type then .cast type term else term
  | none => term

def convertedArgument (conversion : Conversion) (parameter : ParameterInfo) (argument : Term) :
    Term :=
  if parameter.byRef then argument else converted conversion parameter.type argument

def convertedArguments (conversion : Conversion) : List ParameterInfo → List Term → List Term
  | parameter :: parameters, argument :: arguments =>
    convertedArgument conversion parameter argument :: convertedArguments conversion parameters
      arguments
  | _, arguments => arguments

def callee? (conversion : Conversion) (kids : Kids Term) : Option Symbol :=
  ((kidsAt .target kids).one?.bind fun target => target.face.shape.symbol?).filter fun callee =>
    conversion.callables.contains callee.kind

def convertedOccupants (conversion : Conversion) (parameters : List ParameterInfo) :
    Occupants Term → Occupants Term
  | .empty => .empty
  | .one argument =>
    match parameters with
    | [] => .one argument
    | parameter :: _ => .one (convertedArgument conversion parameter argument)
  | .many arguments => .many (convertedArguments conversion parameters arguments)

def convertedCall (conversion : Conversion) (kids : Kids Term) : Kids Term :=
  match callee? conversion kids with
  | none => kids
  | some callee =>
    setKids .arguments (convertedOccupants conversion callee.parameters (kidsAt .arguments kids))
      kids

/-- What becomes of a node, given what has become of its kids and the type that a `return` has to
meet. -/
def convertedNode (conversion : Conversion) (settle : Name → Face → Kids Term → Face × Kids Term)
    (returns : Option Ty) (face : Face) (kids : Kids Term) : Face × Kids Term :=
  match face.shape with
  | .binary op _ =>
    settle op face
      (if op.is "=" then changeRole .right (converted conversion (kidType .left kids))
        kids else kids)
  | .declaration _ _ | .field _ _ _ =>
    (face, changeRole .initializer (converted conversion (kidType .typeRef kids)) kids)
  | .invocation _ => (face, convertedCall conversion kids)
  | .returnStatement => (face, changeRole .expression (converted conversion returns) kids)
  | _ => (face, kids)

def settledArithmetic (op : Name) (face : Face) (kids : Kids Term) : Face × Kids Term :=
  if op.isAmong ["+", "-", "*", "/", "%"] && face.type?.join.any Ty.isObject then
    match (kidType .left kids).filter Ty.isNumeric, (kidType .right kids).filter Ty.isNumeric with
    | some type, _ => (face.withType (some type), changeRole .right (.cast type) kids)
    | none, some type => (face.withType (some type), changeRole .left (.cast type) kids)
    | none, none => (face, kids)
  else (face, kids)

def settledEquality (op : Name) (face : Face) (kids : Kids Term) : Face × Kids Term :=
  if op.isAmong ["==", "!="] && Ty.enumMismatch (kidType .left kids) (kidType .right kids) then
    match kidType .left kids, kidType .right kids with
    | some left, some right =>
      if left.isEnum then (face, changeRole .right (.cast left) kids) else (face,
        changeRole .left (.cast right) kids)
    | _, _ => (face, kids)
  else (face, kids)

/-- The type that a `return` right beneath a node has to meet, given the one that holds for the
node. -/
def returnsWithin (face : Face) (kids : Kids Term) (outer : Option Ty) : Option Ty :=
  if face.shape.kind.isMethod then kidType .returnType kids
  else if face.shape.kind = .closure then none
  else outer

/-- A term with casts put in, given the type that a `return` has to meet. -/
def casted (conversion : Conversion) (settle : Name → Face → Kids Term → Face × Kids Term) :
    Term → Option Ty → Term :=
  Term.fold fun origin face kids outcomes returns =>
    let result := convertedNode conversion settle returns face
      (mapKids (fun outcome => outcome (returnsWithin face kids returns)) outcomes)
    .node origin result.1 result.2

theorem casted_node (conversion : Conversion) (settle : Name → Face → Kids Term → Face × Kids Term)
    (origin : Option NodeId) (face : Face) (kids : Kids Term) (returns : Option Ty) :
    casted conversion settle (.node origin face kids) returns =
      .node origin
        (convertedNode conversion settle returns face
          (mapKids (fun term => casted conversion settle term (returnsWithin face kids returns))
            kids)).1
        (convertedNode conversion settle returns face
          (mapKids (fun term => casted conversion settle term (returnsWithin face kids returns))
            kids)).2 := by
  rw [casted, Term.fold_node, mapKids_mapKids]

end Casts

/-! ## What a `return` has to meet -/

abbrev Demand := Option (Option (Option Ty))

/-- The demand of a method, by what its kids are. -/
def demandIn (faces : Kids Face) : Demand :=
  if (kidsAt .returnType faces).isEmpty then none else some (typeIn? faces .returnType)

def demandWithin (face : Face) (faces : Kids Face) (outer : Demand) : Demand :=
  if face.shape.kind.isMethod then demandIn faces
  else if face.shape.kind = .closure then none
  else outer

theorem demandWithin_of_kind {other : Face} {faces others : Kids Face}
    (hkind : other.shape.kind = face.shape.kind) (hmethod : face.shape.kind.isMethod = false)
    (outer : Demand) :
    demandWithin other others outer = demandWithin face faces outer := by
  simp [demandWithin, hkind, hmethod]

theorem join_demandWithin (face : Face) (kids : Kids Term) (demand : Demand) :
    (demandWithin face (mapKids Term.face kids) demand).join.join =
      Casts.returnsWithin face kids demand.join.join := by
  unfold demandWithin Casts.returnsWithin
  split
  · rw [demandIn, typeIn?, kidsAt_mapKids, kidType]
    cases kidsAt .returnType kids with
    | empty => rfl
    | one term => rfl
    | many terms => cases terms <;> rfl
  · split <;> rfl

namespace Tree

variable {s : Tree}

theorem Reads.type_eq (h : t.Reads known term id) : t.typeOf id = term.type := by
  rw [typeOf, ← Node.type?_face, h.face_eq]
  rfl

theorem Reads.kidType_eq (h : t.Reads known (.node origin face kids) id) :
    (t.only? id role).bind t.typeOf = kidType role kids := by
  have hrel := h.kids.at_role role
  rw [Term.kids_node] at hrel
  rw [kidType, only?, Node.kid]
  generalize kidsAt role kids = occupants at hrel ⊢
  generalize kidsAt role (t.node id).kids = others at hrel ⊢
  cases hrel with
  | empty => rfl
  | one hterm => exact hterm.type_eq
  | many _ => rfl

theorem Reads.kind_eq (h : t.Reads known (.node origin face kids) id) :
    t.kind id = face.shape.kind :=
  congrArg (fun face => face.shape.kind) h.face_eq

/-- What is demanded of a `return` at a node: the return type of the method around it, unless a
closure comes between. -/
def demand (t : Tree) (id : NodeId) : Demand :=
  (t.ancestor? (fun kind => kind.isMethod || kind == .closure) id).bind fun owner =>
    if (t.kind owner).isMethod then demandIn (t.kidFaces owner) else none

theorem demandIn_kidFaces (t : Tree) (id : NodeId) :
    demandIn (t.kidFaces id) =
      if t.lacks id .returnType then none
      else some ((t.only? id .returnType).bind fun c => (t.node c).type?) := by
  rw [demandIn, isEmpty_kidFaces, typeIn?_kidFaces]

theorem demand_child (hid : t.Standing id) (hc : c ∈ t.children id) :
    t.demand c = demandWithin (t.node id).face (t.kidFaces id) (t.demand id) := by
  rw [demand, ancestor?_child hid hc, demandWithin,
    show (t.node id).face.shape.kind = t.kind id from rfl]
  cases hmethod : (t.kind id).isMethod with
  | true => simp [hmethod]
  | false =>
    by_cases hclosure : t.kind id = .closure
    · simp [hclosure, NodeKind.isMethod]
    · simp [hclosure, demand]

theorem Inside.demand_eq (h : Inside s t id) (hid : s.Standing id)
    (htype : (t.node id).type? = (s.node id).type?) :
    t.demand id = s.demand id := by
  rw [demand, demand, h.ancestor?_eq hid]
  cases howner : s.ancestor? (fun kind => kind.isMethod || kind == .closure) id with
  | none => rfl
  | some owner =>
    obtain ⟨hownerS, habove, hne⟩ := ancestor?_above hid howner
    have hoff : ¬s.Beneath id owner :=
      fun hbelow => hne (hownerS.intact.beneath_antisymm habove hbelow)
    have hnode : t.node owner = s.node owner := h.frame owner hownerS.has hoff
    have honly : t.only? owner .returnType = s.only? owner .returnType := by
      rw [only?, only?, hnode]
    have hlacks : t.lacks owner .returnType = s.lacks owner .returnType := by
      rw [lacks, lacks, hnode]
    rw [Option.bind_some, Option.bind_some, h.spared.keeps.kind_eq owner hownerS.has,
      demandIn_kidFaces, demandIn_kidFaces, honly, hlacks]
    have hsame : ((s.only? owner .returnType).bind fun c => (t.node c).type?) =
        (s.only? owner .returnType).bind fun c => (s.node c).type? := by
      refine Option.bind_congr fun r hr => ?_
      have hrChild := mem_children_of_only? hr
      by_cases heq : r = id
      · rw [heq, htype]
      · rw [h.frame r (hownerS.child hrChild).has fun hbelow => hoff ?_]
        obtain ⟨up, hup, habove, _⟩ := hid.intact.holder ⟨hbelow, heq⟩
        rw [hownerS.intact.parent_child hrChild] at hup
        exact Option.some.inj hup ▸ habove
    rw [hsame]

/-- The type that a `return` at a node has to meet: the return type of the method around it, unless
a closure comes between. -/
def returns? (t : Tree) (id : NodeId) : Option Ty :=
  (t.ancestor? (fun kind => kind.isMethod || kind == .closure) id).bind fun owner =>
    if (t.kind owner).isMethod then (t.only? owner .returnType).bind t.typeOf else none

theorem returns?_eq (t : Tree) (id : NodeId) : t.returns? id = (t.demand id).join.join := by
  rw [returns?, demand]
  cases t.ancestor? (fun kind => kind.isMethod || kind == .closure) id with
  | none => rfl
  | some owner =>
    rw [Option.bind_some, Option.bind_some]
    split
    · rw [demandIn_kidFaces, lacks, only?]
      cases (t.node owner).kid .returnType with
      | empty => rfl
      | one c => rfl
      | many cs => cases cs <;> rfl
    · rfl

theorem returns?_child (h : t.Reads known (.node origin face kids) id) (hid : t.Standing id)
    (hc : c ∈ t.children id) :
    t.returns? c = Casts.returnsWithin face kids (t.returns? id) := by
  have hfaces : t.kidFaces id = mapKids Term.face kids := h.kidFaces_eq
  rw [returns?_eq, returns?_eq, demand_child hid hc, h.face_eq, hfaces, ← join_demandWithin]
  rfl

end Tree

/-! ## The pass follows the function -/

namespace Casts

open UnitySharp.Tree Pass

variable {s : Session} {conversion : Conversion} {f : Term → Term} {fact : Prop}
  {action : Pass Unit} {type : Ty} {needs : Name → Face → Kids Face → Prop} {demand : Demand}
  {op : Name} {visit : NodeId → Pass Unit}

theorem changeRole_of_one (h : kidsAt role kids = .one term) :
    changeRole role f kids = setKids role (.one (f term)) kids := by
  rw [changeRole, h, Occupants.map]

theorem changeRole_of_same (h : ∀ term ∈ (kidsAt role kids).toList, f term = term) :
    changeRole role f kids = kids := by
  have hsame : (kidsAt role kids).map f = kidsAt role kids := by
    rw [Occupants.map_congr h]
    cases kidsAt role kids <;> simp [Occupants.map]
  rw [changeRole, hsame, setKids_kidsAt]

def TypesKnown (faces : Kids Face) (roles : List Role) : Prop :=
  ∀ role ∈ roles, ∃ type, typeIn? faces role = some type

def KnownAt (conversion : Conversion) (needs : Name → Face → Kids Face → Prop) (demand : Demand)
    (face : Face) (faces : Kids Face) : Prop :=
  match face.shape with
  | .binary op _ => if op.is "=" then TypesKnown faces [.left, .right] else needs op face faces
  | .declaration _ _ | .field _ _ _ =>
    (kidsAt .initializer faces).isEmpty = false → (kidsAt .typeRef faces).isEmpty = false →
      TypesKnown faces [.typeRef, .initializer]
  | .invocation _ =>
    ∀ callee, ((boundIn faces).filter fun callee => conversion.callables.contains callee.kind) =
      some callee → ∀ item ∈ (kidsAt .arguments faces).toList.zip callee.parameters,
        item.2.byRef = false → ∃ type, item.1.type? = some type
  | .returnStatement =>
    (kidsAt .expression faces).isEmpty = false → ∀ answer, demand = some answer →
      (∃ declared, answer = some declared) ∧ TypesKnown faces [.expression]
  | _ => True

def ArithmeticNeeds (op : Name) (face : Face) (faces : Kids Face) : Prop :=
  ∃ arithmetic, op.isIn ["+", "-", "*", "/", "%"] = .ok arithmetic ∧
    ((arithmetic && face.type?.join.any Ty.isObject) = true → TypesKnown faces [.left, .right])

def EqualityNeeds (op : Name) (_ : Face) (faces : Kids Face) : Prop :=
  op.isAmong ["==", "!="] = true → TypesKnown faces [.left, .right]

def ChangesTo (known : NodeId → Prop) (term : Term) (fact : Prop) (action : Pass Unit) (s : Session)
    (id : NodeId) :
    Prop :=
  Yields action s fun _ after =>
    Familiar known after.tree ∧ Inside s.tree after.tree id ∧ after.tree.Reads known term id ∧ fact

theorem ChangesTo.unchanged (hground : Familiar known s.tree) (hreads : s.tree.Reads known term id)
    (hfact : fact) :
    ChangesTo known term fact (pure ()) s id :=
  Yields.pure ⟨hground, Inside.refl _ _, hreads, hfact⟩

theorem ChangesTo.mono {weaker : Prop} (h : ChangesTo known term fact action s id)
    (hweaker : fact → weaker) :
    ChangesTo known term weaker action s id :=
  Yields.mono h fun _ _ ⟨hafter, hinside, hreads, hfact⟩ => ⟨hafter, hinside, hreads, hweaker hfact⟩

theorem wrapInCast_becomes (type : Ty) :
    Becomes (Familiar known) known (fun old new => new = .cast type old) fun expression =>
      Pass.wrapInCast expression type := by
  intro s id term hground hid hterm
  refine Yields.bind (Yields.edit fun new t hreplace => Yields.pure ?_)
  have hplain : (Draft.cast type (.kept id)).Plain := by
    simp [Draft.cast, Draft.typeRef, Draft.Plain, Draft.PlainKids, Draft.PlainOccupants]
  have hlaid : (Draft.cast type (.kept id)).Laid s.tree := by
    simp [Draft.cast, Draft.typeRef, Shape.kind, NodeKind.layout]
  have hparts : (Draft.cast type (.kept id)).parts = [.whole id] := by
    simp [Draft.cast, Draft.typeRef]
  obtain ⟨hturned, hreads, _⟩ :=
    keeping_turned hground hid hplain hlaid hparts (TakenFrom.self hid.intact) hid hterm hreplace
  exact ⟨hground.of_spared hturned.spared, new, _, hturned, hreads, rfl⟩

theorem kidFaces_of_reads (hreads : s.tree.Reads known (.node origin face kids) id) :
    s.tree.kidFaces id = mapKids Term.face kids :=
  hreads.kidFaces_eq

theorem typesKnown_of_only {roles : List Role}
    (hreads : s.tree.Reads known (.node origin face kids) id)
    (h : ∀ role ∈ roles, ∃ c type, s.tree.only? id role = some c ∧
      (s.tree.node c).type? = some type) :
    TypesKnown (mapKids Term.face kids) roles := by
  intro role hrole
  obtain ⟨c, type, honly, htype⟩ := h role hrole
  rw [← kidFaces_of_reads hreads, typeIn?_kidFaces, honly]
  exact ⟨type, htype⟩

theorem changeRole_changes {f : Term → Term} {fact : Prop} {action : Pass Unit}
    (hground : Familiar known s.tree) (hid : s.tree.Standing id)
    (honly : s.tree.only? id role = some c)
    (hreads : s.tree.Reads known (.node origin face kids) id)
    (haction : ∀ term, s.tree.Reads known term c →
      BecomesBy (Familiar known) known (fun new => new = f term ∧ fact) action s c) :
    ChangesTo known (.node origin face (changeRole role f kids)) fact action s id := by
  refine (child_becomes (fun old new => new = f old ∧ fact) hground.tidy hid honly hreads
    haction).mono ?_
  rintro _ after ⟨hafter, hinside, term, _, hkid, _, ⟨rfl, hfact⟩, hresult⟩
  exact ⟨hafter, hinside, changeRole_of_one hkid ▸ hresult, hfact⟩

theorem castKid_changes (hground : Familiar known s.tree) (hid : s.tree.Standing id)
    (honly : s.tree.only? id role = some c)
    (hreads : s.tree.Reads known (.node origin face kids) id) :
    ChangesTo known (.node origin face (changeRole role (.cast type) kids)) True
    (Pass.wrapInCast c type) s id := by
  refine changeRole_changes hground hid honly hreads fun term hterm => ?_
  exact (wrapInCast_becomes type s c term hground (hid.child (mem_children_of_only? honly))
    hterm).mono fun _ h => ⟨h, trivial⟩

theorem convert_becomes (conversion : Conversion) (target : Option Ty) :
    Becomes (Familiar known) known
      (fun old new => new = converted conversion target old ∧ ∃ type, old.face.type? = some type)
      fun expression => convert conversion expression target := by
  intro s id term hground hid hterm
  refine Yields.bind (Yields.typeAt_eq fun source hsource => ?_)
  have hface : term.face.type? = some source := by rw [← hterm.face_eq, Node.type?_face, hsource]
  have htype : term.type = source := by rw [Term.type, hface, Option.join_some]
  cases target with
  | none => exact BecomesBy.stay hground hid hterm ⟨rfl, source, hface⟩
  | some type =>
    change BecomesBy _ _ _ (if conversion.needed (some type) source then Pass.wrapInCast id
      type else pure ()) s id
    simp only [converted, htype]
    split
    · exact (wrapInCast_becomes type s id term hground hid hterm).mono
        fun _ h => ⟨h, source, hface⟩
    · exact BecomesBy.stay hground hid hterm ⟨rfl, source, hface⟩

theorem convertKid_changes {declared : Option Ty} (hground : Familiar known s.tree)
    (hid : s.tree.Standing id) (honly : s.tree.only? id role = some c)
    (hreads : s.tree.Reads known (.node origin face kids) id) :
    ChangesTo known (.node origin face (changeRole role (converted conversion declared) kids))
      (∃ type, (s.tree.node c).type? = some type) (convert conversion c declared) s id := by
  refine changeRole_changes hground hid honly hreads fun term hterm => ?_
  refine (convert_becomes conversion declared s c term hground
    (hid.child (mem_children_of_only? honly)) hterm).mono ?_
  rintro _ ⟨rfl, htype⟩
  exact ⟨rfl, by rwa [← Node.type?_face, hterm.face_eq]⟩

theorem kidType_of_only {type : Option Ty} (hreads : s.tree.Reads known (.node origin face kids) id)
    (honly : s.tree.only? id role = some c) (htype : (s.tree.node c).type? = some type) :
      kidType role kids = type := by
  rw [← hreads.kidType_eq, honly, Option.bind_some, typeOf, htype]
  rfl

theorem kidsAt_of_lacks (hreads : s.tree.Reads known (.node origin face kids) id)
    (hlacks : s.tree.lacks id role = true) :
    kidsAt role kids = .empty := by
  have hrel := hreads.kids.at_role role
  rw [Term.kids_node] at hrel
  rw [lacks, Node.kid] at hlacks
  generalize kidsAt role (s.tree.node id).kids = others at hrel hlacks
  generalize kidsAt role kids = occupants at hrel ⊢
  cases hrel with
  | empty => rfl
  | one _ => exact absurd hlacks (by simp [Occupants.isEmpty])
  | many _ => exact absurd hlacks (by simp [Occupants.isEmpty])

theorem convertTo_changes {giver : Role} (hground : Familiar known s.tree)
    (hid : s.tree.Standing id) (hreads : s.tree.Reads known (.node origin face kids) id) :
    ChangesTo known
      (.node origin face (changeRole role (converted conversion (kidType giver kids)) kids))
      (TypesKnown (mapKids Term.face kids) [giver, role]) (do
        let declared ← Pass.typeIn id giver
        convert conversion (← Pass.child id role) declared) s id := by
  refine Yields.bind (Yields.typeIn_eq fun c declared hgiver htype => ?_)
  refine Yields.bind (Yields.child fun expression hexpression => ?_)
  rw [kidType_of_only hreads hgiver htype]
  refine (convertKid_changes hground hid hexpression hreads).mono fun ⟨source, hsource⟩ => ?_
  refine typesKnown_of_only hreads ?_
  simp [hgiver, htype, hexpression, hsource]

section

theorem convertInitializer_changes (hground : Familiar known s.tree) (hid : s.tree.Standing id)
    (hreads : s.tree.Reads known (.node origin face kids) id)
    (hkind : face.shape.kind = .declaration ∨ face.shape.kind = .field) :
    ChangesTo known
      (.node origin face (changeRole .initializer (converted conversion (kidType .typeRef kids))
        kids))
      (KnownAt conversion needs demand face (mapKids Term.face kids))
    (convertInitializer conversion id) s id := by
  have hknown : ((kidsAt .initializer (mapKids Term.face kids)).isEmpty = false →
      (kidsAt .typeRef (mapKids Term.face kids)).isEmpty = false →
        TypesKnown (mapKids Term.face kids) [.typeRef, .initializer]) →
      KnownAt conversion needs demand face (mapKids Term.face kids) := by
    intro h
    unfold KnownAt
    cases hshape : face.shape <;> simp_all [Shape.kind]
  refine Yields.read ?_
  split
  · exact (convertTo_changes hground hid hreads).mono fun h => hknown fun _ _ => h
  · rename_i hcondition
    simp only [Bool.and_eq_true, Bool.not_eq_true', not_and, Bool.not_eq_false] at hcondition
    rw [changeRole_of_same]
    · refine ChangesTo.unchanged hground hreads (hknown fun hinitializer htypeRef => ?_)
      rw [← kidFaces_of_reads hreads, isEmpty_kidFaces] at hinitializer htypeRef
      rw [hcondition hinitializer] at htypeRef
      cases htypeRef
    · intro term hterm
      cases hlacks : s.tree.lacks id .initializer with
      | true => simp [kidsAt_of_lacks hreads hlacks, Occupants.toList] at hterm
      | false => simp [kidType, kidsAt_of_lacks hreads (hcondition hlacks), Occupants.one?,
          converted]

theorem convertReturn_changes (hground : Familiar known s.tree) (hid : s.tree.Standing id)
    (hreads : s.tree.Reads known (.node origin face kids) id)
    (hshape : face.shape = .returnStatement) :
    ChangesTo known
      (.node origin face (changeRole .expression (converted conversion (s.tree.demand id).join.join)
        kids))
      (KnownAt conversion needs (s.tree.demand id) face (mapKids Term.face kids))
    (convertReturn conversion id) s id := by
  have hnothing : s.tree.demand id = none → ChangesTo known
      (.node origin face (changeRole .expression (converted conversion (s.tree.demand id).join.join)
        kids))
      (KnownAt conversion needs (s.tree.demand id) face (mapKids Term.face kids)) (pure ()) s
        id := by
    intro hnone
    have hsame : changeRole .expression (converted conversion none) kids = kids :=
      changeRole_of_same fun _ _ => rfl
    rw [hnone, Option.join_none, Option.join_none, hsame]
    exact ChangesTo.unchanged hground hreads (by simp [KnownAt, hshape])
  refine Yields.read ?_
  split
  · split
    · rename_i hancestor
      exact hnothing (by rw [Tree.demand, hancestor, Option.bind_none])
    · rename_i owner hancestor
      have hdemand : s.tree.demand id =
          if (s.tree.kind owner).isMethod then demandIn (s.tree.kidFaces owner) else none := by
        rw [Tree.demand, hancestor, Option.bind_some]
      rw [demandIn, isEmpty_kidFaces] at hdemand
      split
      · rename_i hmethod
        simp only [Bool.and_eq_true, Bool.not_eq_true'] at hmethod
        refine Yields.bind (Yields.typeIn_kidFaces fun declared hdeclared => ?_)
        refine Yields.bind (Yields.child fun expression hexpression => ?_)
        rw [if_pos hmethod.1, hmethod.2, hdeclared] at hdemand
        rw [hdemand]
        refine (convertKid_changes hground hid hexpression hreads).mono ?_
        rintro ⟨source, hsource⟩
        simp only [KnownAt, hshape]
        rintro _ _ ⟨⟩
        exact ⟨⟨declared, rfl⟩, typesKnown_of_only hreads (by simp [hexpression, hsource])⟩
      · rename_i hmethod
        refine hnothing (hdemand.trans ?_)
        cases hkind : (s.tree.kind owner).isMethod with
        | false => rfl
        | true =>
          rw [hkind, Bool.true_and, Bool.not_eq_true', Bool.not_eq_false] at hmethod
          rw [if_pos rfl, hmethod]
          rfl
  · rename_i hlacks
    rw [changeRole_of_same]
    · refine ChangesTo.unchanged hground hreads ?_
      simp only [KnownAt, hshape]
      intro hexpression
      rw [← kidFaces_of_reads hreads, isEmpty_kidFaces] at hexpression
      exact absurd (by simp [hexpression]) hlacks
    · intro term hterm
      rw [kidsAt_of_lacks hreads (by simpa using hlacks)] at hterm
      exact absurd hterm (by simp [Occupants.toList])

theorem convertedArguments_forall₂ {t t' : Tree} {σ : NodeId → NodeId} {arguments : List Term}
    {ids : List NodeId} {parameters : List ParameterInfo}
    (h : List.Forall₂ (t.Reads known) arguments ids) (hnodup : ids.Nodup)
    (hdone : ∀ item ∈ ids.zip parameters, ∀ term, t.Reads known term item.1 →
      t'.Reads known (convertedArgument conversion item.2 term) (σ item.1))
    (hsame : ∀ c ∈ ids, c ∉ (ids.zip parameters).map Prod.fst → ∀ term, t.Reads known term c →
      t'.Reads known term (σ c)) :
    List.Forall₂ (t'.Reads known) (convertedArguments conversion parameters arguments)
    (ids.map σ) := by
  induction h generalizing parameters with
  | nil => cases parameters <;> exact .nil
  | @cons argument c arguments ids hfirst hrest ih =>
    rw [nodup_cons] at hnodup
    cases parameters with
    | nil =>
      simp only [zip_nil_right, map_nil, not_mem_nil, not_false_eq_true, forall_const] at hsame
      exact .cons (hsame c mem_cons_self argument hfirst)
        (forall₂_map_right_iff.mpr (forall₂_mono hrest fun term _ other hother =>
          hsame other (mem_cons_of_mem _ hother) term))
    | cons parameter parameters =>
      rw [zip_cons_cons, forall_mem_cons] at hdone
      refine .cons (hdone.1 argument hfirst) (ih hnodup.2 hdone.2 fun other hother hout => ?_)
      refine hsame other (mem_cons_of_mem _ hother) ?_
      rw [zip_cons_cons, map_cons, mem_cons, not_or]
      exact ⟨fun heq => hnodup.1 ((show other = c from heq) ▸ hother), hout⟩

theorem convertedOccupants_rel {t t' : Tree} {σ : NodeId → NodeId} {first : Occupants Term}
    {others : Occupants NodeId} {parameters : List ParameterInfo}
    (h : Occupants.Rel (t.Reads known) first others) (hnodup : others.toList.Nodup)
    (hdone : ∀ item ∈ others.toList.zip parameters, ∀ term, t.Reads known term item.1 →
      t'.Reads known (convertedArgument conversion item.2 term) (σ item.1))
    (hsame : ∀ c ∈ others.toList, c ∉ (others.toList.zip parameters).map Prod.fst → ∀ term,
      t.Reads known term c → t'.Reads known term (σ c)) :
    Occupants.Rel (t'.Reads known) (convertedOccupants conversion parameters first)
    (others.map σ) := by
  cases h with
  | empty => exact .empty
  | @one argument c hread =>
    cases parameters with
    | nil => exact .one (hsame c (by simp [Occupants.toList]) (by simp) argument hread)
    | cons parameter parameters =>
        exact .one (hdone (c, parameter) (by simp [Occupants.toList]) argument hread)
  | many hreads => exact .many (convertedArguments_forall₂ hreads hnodup hdone hsame)

theorem callee?_eq (hreads : t.Reads known (.node origin face kids) id) :
    (t.binding id).filter (fun callee => conversion.callables.contains callee.kind) =
      callee? conversion kids := by
  have hrel := hreads.kids.at_role .target
  rw [Term.kids_node] at hrel
  rw [callee?, binding, only?, Node.kid]
  generalize kidsAt .target kids = occupants at hrel ⊢
  generalize kidsAt .target (t.node id).kids = others at hrel ⊢
  cases hrel with
  | empty => rfl
  | one hterm =>
    rw [Occupants.one?, Occupants.one?, Option.bind_some, Option.bind_some, symbolOf,
      show t.shape _ = _ from congrArg Face.shape hterm.face_eq]
  | many _ => rfl

theorem convertedCall_of_none (h : callee? conversion kids = none) :
    convertedCall conversion kids = kids := by
  rw [convertedCall, h]

theorem convertedCall_of_some {callee : Symbol} (h : callee? conversion kids = some callee) :
    convertedCall conversion kids =
      setKids .arguments (convertedOccupants conversion callee.parameters (kidsAt .arguments kids))
        kids := by
  rw [convertedCall, h]

theorem convertArguments_changes (hground : Familiar known s.tree) (hid : s.tree.Standing id)
    (hreads : s.tree.Reads known (.node origin face kids) id)
    (hkind : face.shape.kind = .invocation) :
    ChangesTo known (.node origin face (convertedCall conversion kids))
      (KnownAt conversion needs demand face (mapKids Term.face kids))
    (convertArguments conversion id) s id := by
  have hknown : (∀ callee, callee? conversion kids = some callee →
      ∀ item ∈ (s.tree.listed id .arguments).zip callee.parameters, item.2.byRef = false →
        ∃ type, (s.tree.node item.1).type? = some type) →
      KnownAt conversion needs demand face (mapKids Term.face kids) := by
    intro h
    have hcall : ∃ type, face.shape = .invocation type := by
      cases hshape : face.shape <;> simp_all [Shape.kind]
    obtain ⟨type, hshape⟩ := hcall
    simp only [KnownAt, hshape]
    rw [← kidFaces_of_reads hreads, toList_kidFaces, ← binding_eq, callee?_eq hreads]
    intro callee hcallee item hitem hvalue
    rw [zip_map_left, mem_map] at hitem
    obtain ⟨found, hfound, rfl⟩ := hitem
    exact h callee hcallee found hfound hvalue
  refine Yields.read ?_
  rw [callee?_eq hreads]
  cases hcallee : callee? conversion kids with
  | none =>
    rw [convertedCall_of_none hcallee]
    exact ChangesTo.unchanged hground hreads (hknown (by simp [hcallee]))
  | some callee =>
    rw [convertedCall_of_some hcallee]
    have hsub := map_fst_zip_sublist (s.tree.listed id .arguments) callee.parameters
    have hlisted := s.tree.listed_sublist id .arguments
    have hnodup : (s.tree.listed id .arguments).Nodup := hid.intact.nodup.sublist hlisted
    refine Yields.mono (forM_becomes known Prod.fst (fun item old new =>
      new = convertedArgument conversion item.2 old ∧
        (item.2.byRef = false → ∃ type, old.face.type? = some type))
      hground hid (hnodup.sublist hsub) (fun item hitem => ?_) ?_) ?_
    · exact hlisted.subset (hsub.subset (mem_map_of_mem hitem))
    · rintro ⟨argument, parameter⟩ hitem middle term hmiddle hpartway _ hchild hterm
      have hstanding := (hid.of_within hpartway.inside.spared).child hchild
      simp only [convertedArgument]
      cases parameter.byRef with
      | true => exact BecomesBy.stay hmiddle hstanding hterm ⟨rfl, by simp⟩
      | false =>
        exact (convert_becomes conversion parameter.type middle argument term hmiddle hstanding
          hterm).mono fun _ h => ⟨h.1, fun _ => h.2⟩
    · rintro _ after ⟨hafter, σ, hturned, hdone⟩
      refine ⟨hafter, hturned.inside,
        hturned.reads_role hground.tidy hid hreads (fun c hc => hsub.subset hc) ?_, ?_⟩
      · refine convertedOccupants_rel (hreads.kids.at_role .arguments) hnodup ?_
          fun c hc hout term hterm => ?_
        · intro item hitem term hterm
          obtain ⟨_, ⟨rfl, _⟩, hread⟩ := hdone item hitem term hterm
          exact hread
        · obtain ⟨hσ, hsame⟩ := hturned.same c (hlisted.subset hc) hout
          rw [hσ]
          exact hsame term hterm
      · refine hknown fun other hother item hitem hvalue => ?_
        obtain rfl : callee = other := Option.some.inj (hcallee.symm.trans hother)
        obtain ⟨term, _, hterm⟩ :=
          hreads.child (hlisted.subset (hsub.subset (mem_map_of_mem hitem)))
        obtain ⟨_, ⟨_, htype⟩, _⟩ := hdone item hitem term hterm
        rw [← Node.type?_face, hterm.face_eq]
        exact htype hvalue

end

theorem setType_reads (type : Option Ty) (hid : t.Standing id)
    (hreads : t.Reads known (.node origin face kids) id) :
    Inside t (t.setType id type) id ∧
      (t.setType id type).Reads known (.node origin (face.withType type) kids) id := by
  have hspared : ∀ D, Spared D t (t.setType id type) := fun D =>
    Spared.of_same_links (Keeps.setType _ _ _) (fun _ hother => (has_update _ _ _ _).mp hother)
      (fun _ => children_setType _ _ _ _) fun _ => parent_setType _ _ _ _
  obtain ⟨_, _, hface, _⟩ := reads_node_iff.mp hreads
  have hupdated := update_reads hspared (kids_withType _ _) (parent_withType _ _) hid hreads
  rwa [Node.face_withType, hface] at hupdated

theorem castTyped_changes (hground : Familiar known s.tree) (hid : s.tree.Standing id)
    (honly : s.tree.only? id role = some c)
    (hreads : s.tree.Reads known (.node origin face kids) id) :
    ChangesTo known (.node origin (face.withType (some type)) (changeRole role (.cast type) kids))
      True (Pass.setType id (some type) >>= fun _ => Pass.wrapInCast c type) s id := by
  refine Yields.bind (Yields.change ?_)
  obtain ⟨hinside, htyped⟩ := setType_reads (some type) hid hreads
  have hidM := hid.of_within hinside.spared
  have honlyM : (s.tree.setType id (some type)).only? id role = some c := by
    rw [only?, Node.kid, Tree.setType, node_update_self hid.has, kids_withType]
    exact honly
  have hmiddle : Familiar known (s.tree.setType id (some type)) := hground.of_spared hinside.spared
  refine Yields.mono (castKid_changes (s := ⟨s.tree.setType id (some type), s.report⟩) hmiddle hidM
    honlyM htyped) ?_
  rintro _ after ⟨hafter, hinner, hresult⟩
  exact ⟨hafter, hinside.trans hinner hid, hresult⟩

theorem settleArithmetic_changes (hground : Familiar known s.tree) (hid : s.tree.Standing id)
    (hreads : s.tree.Reads known (.node origin face kids) id) :
    ChangesTo known
      (.node origin (settledArithmetic op face kids).1 (settledArithmetic op face kids).2)
      (ArithmeticNeeds op face (mapKids Term.face kids)) (settleArithmetic id op) s id := by
  refine Yields.bind (Yields.ofExcept fun arithmetic harithmetic => ?_)
  have hamong := Name.isAmong_of_isIn harithmetic
  refine Yields.read ?_
  have htype : s.tree.typeOf id = face.type?.join := hreads.type_eq
  rw [htype, settledArithmetic, hamong]
  split
  · refine Yields.bind (Yields.child fun left hleft => ?_)
    refine Yields.bind (Yields.child fun right hright => ?_)
    refine Yields.bind (Yields.typeAt_eq fun leftType hleftType => ?_)
    refine Yields.bind (Yields.typeAt_eq fun rightType hrightType => ?_)
    have hneeds : ArithmeticNeeds op face (mapKids Term.face kids) :=
      ⟨arithmetic, harithmetic, fun _ =>
        typesKnown_of_only hreads (by simp [hleft, hleftType, hright, hrightType])⟩
    rw [kidType_of_only hreads hleft hleftType, kidType_of_only hreads hright hrightType]
    cases leftType.filter Ty.isNumeric with
    | some type => exact (castTyped_changes hground hid hright hreads).mono fun _ => hneeds
    | none =>
      cases rightType.filter Ty.isNumeric with
      | some type => exact (castTyped_changes hground hid hleft hreads).mono fun _ => hneeds
      | none => exact ChangesTo.unchanged hground hreads hneeds
  · rename_i hobject
    exact ChangesTo.unchanged hground hreads ⟨arithmetic, harithmetic, fun h => absurd h hobject⟩

theorem settleEquality_changes (hground : Familiar known s.tree) (hid : s.tree.Standing id)
    (hreads : s.tree.Reads known (.node origin face kids) id) :
    ChangesTo known (.node origin (settledEquality op face kids).1 (settledEquality op face kids).2)
      (EqualityNeeds op face (mapKids Term.face kids)) (settleEquality id op) s id := by
  unfold settleEquality settledEquality
  cases hamong : op.isAmong ["==", "!="] with
  | false =>
    exact ChangesTo.unchanged hground hreads fun h => absurd (hamong.symm.trans h) (by simp)
  | true =>
    refine Yields.bind (Yields.child fun left hleft => ?_)
    refine Yields.bind (Yields.child fun right hright => ?_)
    refine Yields.bind (Yields.typeAt_eq fun leftType hleftType => ?_)
    refine Yields.bind (Yields.typeAt_eq fun rightType hrightType => ?_)
    have hneeds : EqualityNeeds op face (mapKids Term.face kids) := fun _ =>
      typesKnown_of_only hreads (by simp [hleft, hleftType, hright, hrightType])
    have hunchanged := ChangesTo.unchanged hground hreads hneeds
    rw [kidType_of_only hreads hleft hleftType, kidType_of_only hreads hright hrightType,
      Bool.true_and]
    cases leftType with
    | none => exact hunchanged
    | some left =>
      cases rightType with
      | none => exact hunchanged
      | some right =>
        cases Ty.enumMismatch (some left) (some right) with
        | false => exact hunchanged
        | true =>
          simp only [if_true]
          split
          · exact (castKid_changes hground hid hright hreads).mono fun _ => hneeds
          · exact (castKid_changes hground hid hleft hreads).mono fun _ => hneeds

/-! ## The pass as a whole -/

variable {settle : Name → Face → Kids Term → Face × Kids Term}
  {atOperator : NodeId → Name → Pass Unit} {stable : Face → Prop}

structure Settles (known : NodeId → Prop) (settle : Name → Face → Kids Term → Face × Kids Term)
    (needs : Name → Face → Kids Face → Prop) (stable : Face → Prop)
    (atOperator : NodeId → Name → Pass Unit) :
    Prop where
  changes : ∀ s id op origin face kids, Familiar known s.tree → s.tree.Standing id →
    s.tree.Reads known (.node origin face kids) id →
      ChangesTo known (.node origin (settle op face kids).1 (settle op face kids).2)
        (needs op face (mapKids Term.face kids)) (atOperator id op) s id
  type_eq : ∀ op type face kids, face.shape = .binary op type → stable face →
    (settle op face kids).1.type? = face.type?

theorem settles_arithmetic :
    Settles known settledArithmetic ArithmeticNeeds (fun face => face.shape.kind ≠ .binary)
      settleArithmetic where
  changes := fun _ _ _ _ _ _ => settleArithmetic_changes
  type_eq := fun _ _ _ _ hshape hkind => absurd (congrArg Shape.kind hshape) hkind

theorem settledEquality_face (op : Name) (face : Face) (kids : Kids Term) :
    (settledEquality op face kids).1 = face := by
  unfold settledEquality
  split
  · split
    · split <;> rfl
    · rfl
  · rfl

theorem settles_equality :
    Settles known settledEquality EqualityNeeds (fun _ => True) settleEquality where
  changes := fun _ _ _ _ _ _ => settleEquality_changes
  type_eq := fun op _ face kids _ _ => by rw [settledEquality_face]

/-- In a term, the return types of methods are ones whose own types stay. -/
def ReturnsStable (stable : Face → Prop) (term : Term) : Prop :=
  ∀ other, term.Occurs other → other.face.shape.kind.isMethod = true →
    ∀ type, kidsAt .returnType other.kids = .one type → stable type.face

abbrev ReturnsPlain : Term → Prop :=
  ReturnsStable fun face => face.shape.kind ≠ .binary

theorem ReturnsStable.kid (h : ReturnsStable stable (.node origin face kids)) {kid : Term}
    (hkid : kid ∈ allKids kids) :
    ReturnsStable stable kid :=
  fun other hother => h other (Term.occurs_node_iff.mpr (Or.inr ⟨kid, hkid, hother⟩))

theorem convertedNode_face (h : face.shape.kind ≠ .binary) (returns : Option Ty) :
    (convertedNode conversion settle returns face kids).1 = face := by
  unfold convertedNode
  split
  · rename_i hshape
    exact absurd (congrArg Shape.kind hshape) h
  all_goals rfl

theorem face_casted (h : term.face.shape.kind ≠ .binary) (returns : Option Ty) :
    (casted conversion settle term returns).face = term.face := by
  obtain ⟨origin, face, kids⟩ := term
  rw [casted_node, Term.face_node, convertedNode_face (show face.shape.kind ≠ .binary from h),
    Term.face_node]

theorem type?_casted (hsettle : Settles known settle needs stable atOperator) (h : stable term.face)
    (returns : Option Ty) : (casted conversion settle term returns).face.type? =
      term.face.type? := by
  by_cases hkind : term.face.shape.kind = .binary
  · obtain ⟨origin, face, kids⟩ := term
    cases hshape : face.shape <;> simp_all [Shape.kind]
    rw [casted_node, Term.face_node, convertedNode, hshape]
    exact hsettle.type_eq _ _ face _ hshape h
  · rw [face_casted hkind]

theorem demandWithin_stable (hstable : ReturnsStable stable (.node origin face kids))
    {others : Kids Term}
    (h : KidsRel (fun new old => stable old.face → new.face.type? = old.face.type?) others kids)
    (outer : Demand) :
    demandWithin face (mapKids Term.face others) outer = demandWithin face (mapKids Term.face kids)
      outer := by
  unfold demandWithin
  split
  · rename_i hmethod
    have hrel := h.at_role .returnType
    have hkids := hstable _ Relation.ReflTransGen.refl hmethod
    rw [Term.kids_node] at hkids
    rw [demandIn, demandIn, typeIn?, typeIn?, kidsAt_mapKids, kidsAt_mapKids]
    generalize kidsAt .returnType others = first at hrel ⊢
    generalize kidsAt .returnType kids = second at hrel hkids ⊢
    cases hrel with
    | empty => rfl
    | @one _ type hsame => simp [Occupants.map, Occupants.isEmpty, Occupants.one?,
        hsame (hkids type rfl)]
    | many _ => simp [Occupants.map, Occupants.isEmpty, Occupants.one?]
  · rfl

theorem returnsPlain_of_reads (hterm : t.Reads known term id)
    (hplain : ∀ a type, t.Beneath id a → (t.kind a).isMethod = true →
      t.only? a .returnType = some type → t.kind type ≠ .binary) :
    ReturnsPlain term := by
  intro other hoccurs hmethod type htype
  obtain ⟨a, hbelow, hread⟩ := hterm.beneath_of_occurs hoccurs
  obtain ⟨origin, face, kids⟩ := other
  obtain ⟨place, honly, htypeReads⟩ := hread.only_of_kid htype
  cases type
  rw [Term.face_node, ← htypeReads.kind_eq]
  exact hplain a place hbelow (hread.kind_eq ▸ hmethod) honly

/-- The types that are looked up on the way are there. -/
def KnownAlong (conversion : Conversion) (settle : Name → Face → Kids Term → Face × Kids Term)
    (needs : Name → Face → Kids Face → Prop) : Term → Demand → Prop :=
  Term.fold fun _ face kids outcomes demand =>
    KnownAt conversion needs demand face
      (mapKids Term.face
        (mapKids (fun term =>
          casted conversion settle term (returnsWithin face kids demand.join.join)) kids)) ∧
      ∀ outcome ∈ allKids outcomes, outcome (demandWithin face (mapKids Term.face kids) demand)

theorem knownAlong_node_iff :
    KnownAlong conversion settle needs (.node origin face kids) demand ↔
      KnownAt conversion needs demand face
        (mapKids Term.face
          (mapKids (fun term =>
            casted conversion settle term (returnsWithin face kids demand.join.join)) kids)) ∧
          ∀ kid ∈ allKids kids,
          KnownAlong conversion settle needs kid
          (demandWithin face (mapKids Term.face kids) demand) := by
  rw [KnownAlong, Term.fold_node, allKids_mapKids, forall_mem_map]

def CastsTo (conversion : Conversion) (settle : Name → Face → Kids Term → Face × Kids Term)
    (needs : Name → Face → Kids Face → Prop) (stable : Face → Prop) (demand : Demand)
    (term new : Term) : Prop :=
  ReturnsStable stable term →
    new = casted conversion settle term demand.join.join ∧
      KnownAlong conversion settle needs term demand

def CastsBy (known : NodeId → Prop) (conversion : Conversion)
    (settle : Name → Face → Kids Term → Face × Kids Term) (needs : Name → Face → Kids Face → Prop)
    (stable : Face → Prop) (visit : NodeId → Pass Unit) : Prop :=
  ∀ s id term, Familiar known s.tree → s.tree.Standing id → s.tree.Reads known term id →
    BecomesBy (Familiar known) known
      (CastsTo conversion settle needs stable (s.tree.demand id) term) (visit id) s id

theorem descend_castsBy (hsettle : Settles known settle needs stable atOperator)
    (hvisit : CastsBy known conversion settle needs stable visit) (hground : Familiar known s.tree)
    (hid : s.tree.Standing id) (hreads : s.tree.Reads known (.node origin face kids) id) :
    Yields (descend visit id) s fun _ after => Familiar known after.tree ∧
      Inside s.tree after.tree id ∧ ∃ others, after.tree.Reads known (.node origin face others) id ∧
        (ReturnsStable stable (.node origin face kids) →
          others = mapKids (fun term => casted conversion settle term
            (returnsWithin face kids (s.tree.demand id).join.join)) kids ∧
          ∀ kid ∈ allKids kids, KnownAlong conversion settle needs kid
            (demandWithin face (mapKids Term.face kids) (s.tree.demand id))) := by
  refine Yields.mono
    (descend_becomes (fun old new => ReturnsStable stable (.node origin face kids) →
      CastsTo conversion settle needs stable
      (demandWithin face (mapKids Term.face kids) (s.tree.demand id)) old new ∧
      (stable old.face → new.face.type? = old.face.type?)) hground hid hreads ?_) ?_
  · intro middle child term hmiddle hpartway hmem hchild hterm
    have hidM := hid.of_within hpartway.inside.spared
    obtain ⟨⟨origin', face', kids'⟩, hwhole⟩ := Reads.exists_of_intact known hidM.intact
    have hface : face' = face := (hwhole.face_eq.symm.trans hpartway.face_eq).trans hreads.face_eq
    subst hface
    refine (hvisit middle child term hmiddle (hidM.child hchild) hterm).mono fun new hnew hstable =>
      ?_
    -- The demand has not changed while the siblings before this one were gone through.
    have hdemand : middle.tree.demand child = demandWithin face' (mapKids Term.face kids)
      (s.tree.demand id) := by
      rw [demand_child hidM hchild, hwhole.face_eq, hwhole.kidFaces_eq,
        hpartway.inside.demand_eq hid (congrArg Face.type? hpartway.face_eq)]
      refine demandWithin_stable hstable
        ((hpartway.kids kids kids' hreads.kids hwhole.kids).mono ?_) _
      rintro new old _ _ (rfl | hdone)
      · exact fun _ => rfl
      · exact (hdone hstable).2
    rw [hdemand] at hnew
    refine ⟨hnew, fun h => ?_⟩
    rw [(hnew (hstable.kid hmem)).1]
    exact type?_casted hsettle h _
  · rintro _ after ⟨hafter, hinside, others, hothers, hresult⟩
    refine ⟨hafter, hinside, others, hresult, fun hstable => ⟨?_, fun kid hkid => ?_⟩⟩
    · refine KidsRel.eq_mapKids (hothers.mono fun new old _ hold h => ?_)
      rw [((h hstable).1 (hstable.kid hold)).1, join_demandWithin]
    · obtain ⟨_, _, h⟩ := hothers.exists_left hkid
      exact ((h hstable).1 (hstable.kid hkid)).2

theorem conversionRule_castsBy (hsettle : Settles known settle needs stable atOperator)
    (hvisit : CastsBy known conversion settle needs stable visit) :
    CastsBy known conversion settle needs stable (conversionRule conversion atOperator visit) := by
  rintro s id ⟨origin, face, kids⟩ hground hid hreads
  refine Yields.bind (Yields.mono (descend_castsBy hsettle hvisit hground hid hreads) ?_)
  rintro _ middle ⟨hmiddle, hinside, others, hothers, hkids⟩
  have hidM := hid.of_within hinside.spared
  have hdemand : middle.tree.demand id = s.tree.demand id :=
    hinside.demand_eq hid (congrArg Face.type? (hothers.face_eq.trans hreads.face_eq.symm))
  -- It is enough that the node itself is dealt with as the function says.
  suffices h : ChangesTo known
      (.node origin (convertedNode conversion settle (s.tree.demand id).join.join face others).1
        (convertedNode conversion settle (s.tree.demand id).join.join face others).2)
      (KnownAt conversion needs (s.tree.demand id) face (mapKids Term.face others)) _ middle id by
    refine Yields.mono h ?_
    rintro _ after ⟨hafter, hinner, hresult, hknown⟩
    refine ⟨hafter, id, _, (hinside.trans hinner hid).turned hid, hresult, fun hstable => ?_⟩
    obtain ⟨rfl, hbelow⟩ := hkids hstable
    exact ⟨(casted_node ..).symm, knownAlong_node_iff.mpr ⟨hknown, hbelow⟩⟩
  refine Yields.read ?_
  rw [hothers.shape_eq, Term.face_node]
  unfold convertedNode
  cases hshape : face.shape with
  | binary op type =>
    simp only [KnownAt, hshape]
    cases hassign : op.is "=" with
    | false => exact hsettle.changes middle id op origin face others hmiddle hidM hothers
    | true =>
      have hsplit : (do
            let declared ← Pass.typeIn id .left
            convert conversion (← Pass.child id .right) declared
            atOperator id op) =
          ((do
            let declared ← Pass.typeIn id .left
            convert conversion (← Pass.child id .right) declared) >>= fun _ =>
              atOperator id op) := by
        simp only [bind_assoc]
      simp only [if_true, hsplit]
      refine Yields.bind (Yields.mono (convertTo_changes hmiddle hidM hothers) ?_)
      rintro _ last ⟨hlast, hinner, hassigned, hknown⟩
      refine Yields.mono
        (hsettle.changes last id op origin face _ hlast (hidM.of_within hinner.spared) hassigned) ?_
      rintro _ after ⟨hafter, hinmost, hresult, _⟩
      exact ⟨hafter, hinner.trans hinmost hidM, hresult, hknown⟩
  | declaration _ _ =>
    exact convertInitializer_changes hmiddle hidM hothers (Or.inl (congrArg Shape.kind hshape))
  | field _ _ _ =>
    exact convertInitializer_changes hmiddle hidM hothers (Or.inr (congrArg Shape.kind hshape))
  | invocation _ => exact convertArguments_changes hmiddle hidM hothers (congrArg Shape.kind hshape)
  | returnStatement => exact hdemand ▸ convertReturn_changes hmiddle hidM hothers hshape
  | _ => exact ChangesTo.unchanged hmiddle hothers (by simp only [KnownAt, hshape])

theorem visitWithin_castsBy (hsettle : Settles known settle needs stable atOperator) (depth : Nat) :
    CastsBy known conversion settle needs stable
    (visitWithin (conversionRule conversion atOperator) depth) := by
  induction depth with
  | zero => exact fun _ _ _ _ _ _ => Yields.throw
  | succ depth ih => exact conversionRule_castsBy hsettle ih

theorem demand_root (h : t.parent t.root = none) : t.demand t.root = none := by
  rw [Tree.demand, ancestor?_top h, Option.bind_none]

theorem everywhere_castsBy (hsettle : Settles known settle needs stable atOperator)
    (hground : Familiar known s.tree) (hsound : s.tree.Sound)
    (hterm : s.tree.Reads known term s.tree.root) :
    Yields (everywhere (conversionRule conversion atOperator)) s fun _ after =>
      Familiar known after.tree ∧ s.tree.SparesRoot after.tree ∧ ∃ other,
        CastsTo conversion settle needs stable none term other ∧
          after.tree.Reads known other after.tree.root := by
  have hroot : s.tree.Standing s.tree.root := hsound.standing
  refine Yields.read ?_
  refine Yields.mono (visitWithin_castsBy hsettle _ s s.tree.root term hground hroot hterm) ?_
  rintro _ after ⟨hafter, new, other, hturned, hreads, hcasts⟩
  rw [hturned.top hsound.top, ← hturned.spared.keeps.root_eq] at hreads
  rw [demand_root hsound.top] at hcasts
  exact ⟨hafter, ⟨_, hturned.spared, fun hreach => hreach.2 hsound.top⟩, other, hcasts, hreads⟩

end Casts

end UnitySharp
