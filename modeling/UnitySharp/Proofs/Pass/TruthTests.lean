import UnitySharp.Proofs.Pass.Rewriting
import UnitySharp.Proofs.Pass.Settling

/-!
# What the tests for truth come to

The pass that compares conditions with their zeros walks into what it has just written.  As a
function on terms it is a plain recursion: `tested expected` is the value for a term in a place
where a truth value is expected or not.
-/

namespace UnitySharp

variable {origin : Option NodeId} {face : Face} {kids : Kids Term} {term : Term} {zero : Draft}
  {type : Option Ty} {op : String}

/-! ## The pass as a function on terms -/

def Face.zero? (face : Face) : Option Term :=
  (face.type?.bind TruthTests.zeroOf?).map (Draft.term fun id => .node (some id) face [])

/-- Whether what stands in a role of a node has to be a truth value for a branch or a logical
operator. -/
def Shape.testsIn (shape : Shape) (role : Role) : Bool :=
  match shape with
  | .ifStatement | .whileLoop | .conditional _ => role = .condition
  | .binary op _ => op.isAmong ["and", "or"] && (role = .left || role = .right)
  | _ => false

def Shape.isNegation (shape : Shape) : Bool :=
  match shape with
  | .unary op _ _ => op.is "not"
  | _ => false

namespace Term

variable {shape : Shape}

def compared (op : String) (left : Occupants Term) (right : Term) (position : Option Position) :
    Term :=
  .node none ⟨.binary op (some Ty.bool), none, position, []⟩ [(.left, left), (.right, .one right)]

def negated? (face : Face) (kids : Kids Term) : Option Term :=
  if face.shape.isNegation then (kidsAt .operand kids).one?.bind fun operand =>
    operand.face.zero? else none

/-- A node whose kids have become others: a negation of anything but a truth value turns into an
equality. -/
def withKids (origin : Option NodeId) (face : Face) (kids results : Kids Term) : Term :=
  match negated? face kids with
  | some zero => compared "==" (kidsAt .operand results) zero face.position
  | none => .node origin face results

/-- What has become of a node, in a place where a truth value is expected or not. -/
def inPlace (face : Face) (expected : Bool) (result : Term) : Term :=
  match if expected then face.zero? else none with
  | some zero => compared "!=" (.one result) zero none
  | none => result

/-- A term with all tests for truth spelled out, for a place where a truth value is expected or
not. -/
def tested : Term → Bool → Term :=
  fold fun origin face kids outcomes expected =>
    inPlace face expected
      (withKids origin face kids (atRoles (fun role outcome => outcome (face.shape.testsIn role))
        outcomes))

theorem tested_node (origin : Option NodeId) (face : Face) (kids : Kids Term) (expected : Bool) :
    tested (.node origin face kids) expected =
      inPlace face expected
        (withKids origin face kids (atRoles (fun role term => tested term (face.shape.testsIn role))
          kids)) := by
  rw [tested, fold_node, atRoles_mapKids]

theorem inPlace_false (face : Face) (result : Term) : inPlace face false result = result := rfl

theorem tested_true (term : Term) :
    tested term true = inPlace term.face true (tested term false) := by
  cases term
  rw [tested_node, tested_node, inPlace_false]
  rfl

theorem tested_plain (htests : ∀ entry ∈ kids, face.shape.testsIn entry.1 = false)
    (hnegated : negated? face kids = none) :
    tested (.node origin face kids) false = .node origin face
    (mapKids (fun term => tested term false) kids) := by
  rw [tested_node, inPlace_false, withKids, hnegated, atRoles_const fun entry hentry => ?_]
  rw [htests entry hentry]

/-! ## Zeros -/

/-- Terms without operators and conditions. -/
def Inert : Term → Prop :=
  fold fun _ face _ outcomes =>
    face.shape.kind ∉ [.ifStatement, .whileLoop, .conditional, .binary, .unary] ∧
      ∀ outcome ∈ allKids outcomes, outcome

theorem inert_node_iff :
    Inert (.node origin face kids) ↔
      face.shape.kind ∉ [.ifStatement, .whileLoop, .conditional, .binary, .unary] ∧
        ∀ term ∈ allKids kids, Inert term := by
  rw [Inert, fold_node, allKids_mapKids, List.forall_mem_map]

theorem testsIn_of_inert
    (h : shape.kind ∉ [.ifStatement, .whileLoop, .conditional, .binary, .unary]) (role : Role) :
    shape.testsIn role = false := by
  cases shape <;> simp_all [Shape.kind, Shape.testsIn]

theorem isNegation_of_inert
    (h : shape.kind ∉ [.ifStatement, .whileLoop, .conditional, .binary, .unary]) :
    shape.isNegation = false := by
  cases shape <;> simp_all [Shape.kind, Shape.isNegation]

theorem negated?_of_not (h : face.shape.isNegation = false) (kids : Kids Term) :
    negated? face kids = none := by
  simp [negated?, h]

theorem Inert.tested_eq (h : Inert term) : tested term false = term := by
  induction term with
  | node origin face kids ih =>
    obtain ⟨hkind, hkids⟩ := inert_node_iff.mp h
    rw [tested_plain (fun entry _ => testsIn_of_inert hkind entry.1)
      (negated?_of_not (isNegation_of_inert hkind) kids)]
    conv_rhs => rw [← mapKids_id kids]
    rw [mapKids_congr fun term hterm => ih term hterm (hkids term hterm)]

end Term

namespace TruthTests

theorem zeroFor_term {type : Ty} (h : Draft.zeroFor type = some zero) (look look' : NodeId → Term) :
    zero.Plain ∧ zero.term look = zero.term look' ∧ (zero.term look).Inert := by
  unfold Draft.zeroFor at h
  split at h
  · cases h
    simp [Draft.literal, Draft.Plain, Draft.PlainKids, Draft.term, Draft.termKids,
      Term.inert_node_iff, Shape.kind, allKids_nil]
  · split at h
    · cases h
      simp [Draft.literal, Draft.Plain, Draft.PlainKids, Draft.term, Draft.termKids,
        Term.inert_node_iff, Shape.kind, allKids_nil]
    · split at h
      · split at h
        · cases h
          simp [Draft.enumMember, Draft.memberAccess, Draft.typeName, Draft.Plain, Draft.PlainKids,
            Draft.PlainOccupants, Draft.term, Draft.termKids, Draft.termOccupants,
              Term.inert_node_iff,
            Shape.kind, allKids_nil, allKids_cons, Occupants.toList]
        · cases h
          simp [Draft.cast, Draft.typeRef, Draft.literal, Draft.Plain, Draft.PlainKids,
            Draft.PlainOccupants, Draft.term, Draft.termKids, Draft.termOccupants,
              Term.inert_node_iff,
            Shape.kind, allKids_nil, allKids_cons, Occupants.toList]
      · split at h
        · cases h
          simp [Draft.literal, Draft.Plain, Draft.PlainKids, Draft.term, Draft.termKids,
            Term.inert_node_iff, Shape.kind, allKids_nil]
        · exact absurd h (by simp)

theorem zeroFor_of_zeroOf? (h : zeroOf? type = some zero) :
    ∃ known, type = some known ∧ known.isBoolean = false ∧ Draft.zeroFor known = some zero := by
  unfold zeroOf? at h
  split at h
  · exact absurd h (by simp)
  · split at h
    · exact absurd h (by simp)
    · rename_i known hboolean
      exact ⟨known, rfl, by simpa using hboolean, h⟩

end TruthTests

theorem Face.zero?_inert {zero : Term} (h : face.zero? = some zero) : zero.Inert := by
  obtain ⟨draft, hdraft, rfl⟩ := Option.map_eq_some_iff.mp h
  obtain ⟨type, _, hzero⟩ := Option.bind_eq_some_iff.mp hdraft
  obtain ⟨known, _, _, hzero⟩ := TruthTests.zeroFor_of_zeroOf? hzero
  exact (TruthTests.zeroFor_term hzero _ (fun id => .node (some id) face [])).2.2

namespace Term

theorem tested_compared (hop : (op == "and" || op == "or") = false) (term : Term) {zero : Term}
    (hzero : zero.Inert) (position : Option Position) :
    tested (compared op (.one term) zero position) false =
      compared op (.one (tested term false)) zero position := by
  have hamong : Name.isAmong (op : Name) ["and", "or"] = false := by
    simpa [Name.isAmong] using hop
  rw [compared, tested_plain]
  · simp [mapKids, Occupants.map, hzero.tested_eq, compared]
  · intro entry _
    simp [Shape.testsIn, hamong]
  · simp [negated?, Shape.isNegation]

theorem tested_inPlace (term : Term) :
    tested (inPlace term.face true term) false = tested term true := by
  rw [tested_true]
  unfold inPlace
  cases hzero : term.face.zero? with
  | none => rfl
  | some zero => exact tested_compared (by decide) term (Face.zero?_inert hzero) none

end Term

/-! ## The pass follows the function -/

namespace TruthTests

open UnitySharp.Tree Pass

variable {known : NodeId → Prop} {s : Session} {id : NodeId} {visit : NodeId → Pass Unit}
  {role : Role}

theorem zero?_of_zeroOf? (hterm : s.tree.Reads known term id)
    (htype : (s.tree.node id).type? = some type) (look : NodeId → Term) :
    term.face.zero? = (zeroOf? type).map (Draft.term look) := by
  have hface : term.face.type? = some type := by rw [← hterm.face_eq, Node.type?_face, htype]
  rw [Face.zero?, hface, Option.bind_some]
  cases hzero : zeroOf? type with
  | none => rfl
  | some zero =>
    obtain ⟨_, _, _, hfor⟩ := zeroFor_of_zeroOf? hzero
    simp only [Option.map_some, (zeroFor_term hfor _ look).2.1]

theorem compare_turned {t' : Tree} {new c : NodeId} {position : Option Position}
    (hground : Familiar known s.tree) (hid : s.tree.Standing id) (hzero : zeroOf? type = some zero)
    (htaken : s.tree.TakenFrom id [.whole c]) (hc : s.tree.Standing c)
    (hterm : s.tree.Reads known term c)
    (h : s.tree.replace id (.comparison op (.kept c) zero position) = .ok (new, t')) :
    Turned s.tree t' id new ∧
      t'.Reads known (.compared op (.one term) (zero.term fun _ => term) position) new ∧
      Replaced s.tree t' id new [.whole c] := by
  obtain ⟨_, _, _, hfor⟩ := zeroFor_of_zeroOf? hzero
  obtain ⟨hplain, _, _⟩ := zeroFor_term hfor (fun _ => term) fun _ => term
  obtain ⟨hlaid, hparts⟩ := zeroOf?_laid hzero s.tree
  refine keeping_turned hground hid ?_ ?_ ?_ htaken hc hterm h
  · simp [Draft.comparison, Draft.binary, Draft.Plain, Draft.PlainKids, Draft.PlainOccupants,
      hplain]
  · simp [Draft.comparison, Draft.binary, Shape.kind, NodeKind.layout, hlaid]
  · simp [Draft.comparison, Draft.binary, hparts]

def Named (shape : Shape) : Prop :=
  ∀ op type, shape = .binary op type → ∃ logical, op.isIn ["and", "or"] = .ok logical

structure Typed (face : Face) (faces : Kids Face) : Prop where
  logical : Named face.shape
  typed : ∀ role, face.shape.testsIn role = true ∨ face.shape.isNegation = true ∧ role = .operand →
    (typeIn? faces role).isSome

def Tests (old new : Term) : Prop :=
  new = old.tested false ∧ new.Throughout Typed

theorem typed_tested (h : term.face.type?.isSome) : (term.tested false).face.type?.isSome := by
  obtain ⟨origin, face, kids⟩ := term
  rw [Term.tested_node, Term.inPlace_false, Term.withKids]
  split
  · rfl
  · exact h

theorem typeIn?_tested (h : (typeIn? (mapKids Term.face kids) role).isSome) :
    (typeIn? (mapKids Term.face (mapKids (fun term => term.tested false) kids)) role).isSome := by
  simp only [typeIn?, kidsAt_mapKids, Occupants.one?_map] at h ⊢
  cases hone : (kidsAt role kids).one? with
  | none => simp [hone] at h
  | some term =>
    simp only [hone, Option.map_some, Option.bind_some] at h ⊢
    exact typed_tested h

theorem typeIn?_setKids {other : Term} (h : kidsAt role kids = .one term) :
    typeIn? (mapKids Term.face (setKids role (.one other) kids)) role = other.face.type? := by
  have hmem : term ∈ (kidsAt role kids).toList := by simp [h, Occupants.toList]
  rw [typeIn?, kidsAt_mapKids, Occupants.one?_map,
    kidsAt_setKids_self (any_role_of_kidsAt_ne_empty term hmem)]
  rfl

theorem promote_becomes : Becomes (Familiar known) known
    (fun old new => new = .inPlace old.face true old ∧ new.face.type?.isSome) promote := by
  intro s id term hground hid hterm
  refine Yields.bind (Yields.typeAt_eq fun type htype => ?_)
  have hzeros := zero?_of_zeroOf? hterm htype fun _ => term
  split
  · rename_i zero hzero
    refine Yields.bind (Yields.edit fun new t hreplace => Yields.pure ?_)
    obtain ⟨hturned, hreads, _⟩ :=
      compare_turned hground hid hzero (TakenFrom.self hid.intact) hid hterm hreplace
    refine ⟨hground.of_spared hturned.spared, new, _, hturned, hreads, ?_, rfl⟩
    simp [Term.inPlace, hzeros, hzero]
  · rename_i hzero
    refine BecomesBy.stay hground hid hterm ⟨?_, ?_⟩
    · simp [Term.inPlace, hzeros, hzero]
    · rw [← hterm.face_eq, Node.type?_face, htype]
      rfl

section

theorem descend_tests {middle : Session} {others : Kids Term}
    (hvisit : Becomes (Familiar known) known Tests visit) (hid : middle.tree.Standing id)
    (hmiddle : Familiar known middle.tree)
    (hreads : middle.tree.Reads known (.node origin face others) id)
    (htyped : Typed face (mapKids Term.face others)) :
    Yields (descend visit id) middle fun _ after => Familiar known after.tree ∧
      Inside middle.tree after.tree id ∧
        after.tree.Reads known (.node origin face (mapKids (fun term => term.tested false) others))
        id ∧ Term.Throughout Typed
    (.node origin face (mapKids (fun term => term.tested false) others)) := by
  refine (descend_becomes_all hvisit hmiddle hid hreads).mono ?_
  rintro _ after ⟨hafter, hinside, laters, hlaters, hresult⟩
  obtain rfl := KidsRel.eq_mapKids (hlaters.mono fun _ _ _ _ h => h.1)
  refine ⟨hafter, hinside, hresult, Term.throughout_node_iff.mpr ⟨?_, fun kid hkid => ?_⟩⟩
  · exact ⟨htyped.logical, fun role hrole => typeIn?_tested (htyped.typed role hrole)⟩
  · exact (hlaters.exists_right hkid).elim fun _ h => h.2.2

theorem descend_promoted {middle : Session} {others : Kids Term}
    (hvisit : Becomes (Familiar known) known Tests visit) (hid : s.tree.Standing id)
    (hmiddle : Familiar known middle.tree) (hinside : Inside s.tree middle.tree id)
    (hreads : middle.tree.Reads known (.node origin face others) id)
    (htyped : Typed face (mapKids Term.face others))
    (hterm : Term.tested (.node origin face kids) false = .node origin face
      (mapKids (fun term => term.tested false) others)) :
    Yields (descend visit id) middle fun _ after => Familiar known after.tree ∧ ∃ new term,
      Turned s.tree after.tree id new ∧ after.tree.Reads known term new ∧
        Tests (.node origin face kids) term := by
  refine (descend_tests hvisit (hid.of_within hinside.spared) hmiddle hreads htyped).mono ?_
  rintro _ after ⟨hafter, hinner, hresult, hthroughout⟩
  exact ⟨hafter, id, _, (hinside.trans hinner hid).turned hid, hresult, hterm.symm, hthroughout⟩

theorem descend_plain (hvisit : Becomes (Familiar known) known Tests visit)
    (hground : Familiar known s.tree) (hid : s.tree.Standing id)
    (hreads : s.tree.Reads known (.node origin face kids) id) (hlogical : Named face.shape)
    (htests : ∀ role, face.shape.testsIn role = false) (hnegated : Term.negated? face kids = none)
    (hoperand : face.shape.isNegation = true → (typeIn? (mapKids Term.face kids) .operand).isSome) :
    BecomesBy (Familiar known) known (Tests (.node origin face kids)) (descend visit id) s id := by
  refine descend_promoted hvisit hid hground (Inside.refl _ _) hreads ⟨hlogical, fun role hrole =>
    ?_⟩ (Term.tested_plain (fun entry _ => htests entry.1) hnegated)
  obtain ⟨hnegation, rfl⟩ : face.shape.isNegation = true ∧ role = .operand := by
    simpa [htests] using hrole
  exact hoperand hnegation

theorem condition_becomes (hvisit : Becomes (Familiar known) known Tests visit)
    (hground : Familiar known s.tree) (hid : s.tree.Standing id)
    (hreads : s.tree.Reads known (.node origin face kids) id)
    (hlogical : Named face.shape)
    (htests : ∀ role, face.shape.testsIn role = decide (role = .condition))
    (hnegation : face.shape.isNegation = false) :
    BecomesBy (Familiar known) known (Tests (.node origin face kids))
      (do promote (← Pass.child id .condition); descend visit id) s id := by
  refine Yields.bind (Yields.child fun condition hcondition => ?_)
  have hchild := mem_children_of_only? hcondition
  refine Yields.bind ((child_becomes _ hground.tidy hid hcondition hreads
    fun term => promote_becomes s condition term hground (hid.child hchild)).mono ?_)
  rintro _ middle ⟨hmiddle, hinside, term, _, hkid, _, ⟨rfl, hsome⟩, hresult⟩
  refine descend_promoted hvisit hid hmiddle hinside hresult ⟨hlogical, fun role hrole => ?_⟩ ?_
  · obtain rfl : role = .condition := by simpa [htests, hnegation] using hrole
    rwa [typeIn?_setKids hkid]
  have hroles := hreads.roles_nodup hground.tidy
  rw [Term.tested_node, Term.inPlace_false, Term.withKids, Term.negated?_of_not hnegation,
    mapKids_setKids, Occupants.map, Term.tested_inPlace,
    atRoles_eq_setKids (g := fun _ term => term.tested false) hroles hkid fun r hr => by
      rw [htests, decide_eq_false hr],
    htests, decide_eq_true rfl]
  rfl

theorem logic_becomes (hvisit : Becomes (Familiar known) known Tests visit)
    (hground : Familiar known s.tree) (hid : s.tree.Standing id)
    (hreads : s.tree.Reads known (.node origin face kids) id) (hlogical : Named face.shape)
    (htests : ∀ role, face.shape.testsIn role = decide (role = .left ∨ role = .right))
    (hnegation : face.shape.isNegation = false) :
    BecomesBy (Familiar known) known (Tests (.node origin face kids))
      (do
        promote (← Pass.child id .left)
        promote (← Pass.child id .right)
        descend visit id) s id := by
  refine Yields.bind (Yields.child fun left hleft => ?_)
  refine Yields.bind ((child_becomes _ hground.tidy hid hleft hreads
    fun term => promote_becomes s left term hground (hid.child (mem_children_of_only? hleft))).mono
      ?_)
  rintro _ middle ⟨hmiddle, hfirst, term, _, hkid, _, ⟨rfl, hleftTyped⟩, hresult⟩
  have hidM := hid.of_within hfirst.spared
  refine Yields.bind (Yields.child fun right hright => ?_)
  refine Yields.bind ((child_becomes _ hmiddle.tidy hidM hright hresult
    fun term =>
      promote_becomes middle right term hmiddle (hidM.child (mem_children_of_only? hright))).mono
      ?_)
  rintro _ later ⟨hlater, hsecond, other, _, hother, _, ⟨rfl, hrightTyped⟩, hresult⟩
  refine descend_promoted hvisit hid hlater (hfirst.trans hsecond hid) hresult ⟨hlogical,
    fun role hrole => ?_⟩ ?_
  · rcases show role = .left ∨ role = .right by simpa [htests, hnegation] using hrole with rfl | rfl
    · rwa [typeIn?, mapKids_setKids, kidsAt_setKids_ne (by decide), ← typeIn?, typeIn?_setKids hkid]
    · rwa [typeIn?_setKids hother]
  have hroles := hreads.roles_nodup hground.tidy
  rw [kidsAt_setKids_ne (by decide)] at hother
  rw [Term.tested_node, Term.inPlace_false, Term.withKids, Term.negated?_of_not hnegation,
    mapKids_setKids, mapKids_setKids, Occupants.map, Occupants.map, Term.tested_inPlace,
    Term.tested_inPlace, atRoles_eq_setKids
    (g := fun role term => term.tested (decide (role = .left))) hroles hother fun r hr => by
      simp [htests, hr],
    atRoles_eq_setKids (g := fun _ term => term.tested false) hroles hkid fun r hr => by
      rw [decide_eq_false hr], htests]
  rfl

theorem visitNegation_becomes (hvisit : Becomes (Familiar known) known Tests visit)
    (hground : Familiar known s.tree) (hid : s.tree.Standing id)
    (hreads : s.tree.Reads known (.node origin face kids) id) (hlogical : Named face.shape)
    (htests : ∀ role, face.shape.testsIn role = false) (hnegation : face.shape.isNegation = true) :
    BecomesBy (Familiar known) known (Tests (.node origin face kids)) (visitNegation visit id) s
      id := by
  refine Yields.read (Yields.bind (Yields.child fun operand hoperand => ?_))
  refine Yields.bind (Yields.typeAt_eq fun type htype => ?_)
  have hchild := mem_children_of_only? hoperand
  obtain ⟨term, hkid, hterm⟩ := hreads.only hoperand
  have hzeros := zero?_of_zeroOf? hterm htype fun _ => term
  split
  · rename_i zero hzero
    refine Yields.bind (Yields.edit fun new t hreplace => ?_)
    obtain ⟨hturned, hcompared, hreplaced⟩ :=
      compare_turned hground hid hzero (TakenFrom.child hid.intact hchild) (hid.child hchild) hterm
        hreplace
    have htyped : ∀ faces, Typed ⟨.binary "==" (some Ty.bool), none, s.tree.position id, []⟩
      faces := fun faces =>
      ⟨fun op type h => by cases h; exact ⟨false, rfl⟩, fun role h => by
        simp [Shape.testsIn, Shape.isNegation, Name.isAmong] at h⟩
    refine Yields.mono (descend_tests hvisit hreplaced.standing (hground.of_spared hturned.spared)
      hcompared (htyped _)) ?_
    rintro _ after ⟨hafter, hinside, hresult, hthroughout⟩
    refine ⟨hafter, new, _, hturned.trans_inside hinside hid hreplaced.region, hresult, ?_,
      hthroughout⟩
    have hsome : term.face.zero? = some (zero.term fun _ => term) := by simp [hzeros, hzero]
    have hinert := Face.zero?_inert hsome
    have hnegated : Term.negated? face kids = some (zero.term fun _ => term) := by
      simp [Term.negated?, hnegation, hkid, hsome, Occupants.one?]
    have hposition : s.tree.position id = face.position := congrArg Face.position hreads.face_eq
    rw [hposition, Term.tested_node, Term.inPlace_false, Term.withKids, hnegated]
    simp [Term.compared, mapKids, Occupants.map, hinert.tested_eq, kidsAt_atRoles, hkid, htests]
  · rename_i hzero
    refine descend_plain hvisit hground hid hreads hlogical htests ?_ fun _ => ?_
    · simp [Term.negated?, hkid, hzeros, hzero, Occupants.one?]
    · rw [show mapKids Term.face kids = _ from hreads.kidFaces_eq.symm, typeIn?_kidFaces, hoperand,
        Option.bind_some, htype]
      rfl

theorem rule_becomes (visit : NodeId → Pass Unit)
    (hvisit : Becomes (Familiar known) known Tests visit) :
    Becomes (Familiar known) known Tests (rule visit) := by
  rintro s id ⟨origin, face, kids⟩ hground hid hreads
  refine Yields.read ?_
  rw [hreads.shape_eq, Term.face_node]
  split
  · rename_i heq
    exact condition_becomes hvisit hground hid hreads (by simp [Named, heq])
      (fun role => by simp [heq, Shape.testsIn]) (by simp [heq, Shape.isNegation])
  · rename_i heq
    exact condition_becomes hvisit hground hid hreads (by simp [Named, heq])
      (fun role => by simp [heq, Shape.testsIn]) (by simp [heq, Shape.isNegation])
  · rename_i heq
    exact condition_becomes hvisit hground hid hreads (by simp [Named, heq])
      (fun role => by simp [heq, Shape.testsIn]) (by simp [heq, Shape.isNegation])
  · rename_i op type heq
    have hnegation : face.shape.isNegation = false := by simp [heq, Shape.isNegation]
    refine Yields.bind (Yields.ofExcept fun logical hlogical => ?_)
    have hamong := Name.isAmong_of_isIn hlogical
    have hknown : Named face.shape := fun _ _ h => by
      cases heq.symm.trans h
      exact ⟨logical, hlogical⟩
    split
    · rename_i htrue
      exact logic_becomes hvisit hground hid hreads hknown
        (fun role => by simp [heq, Shape.testsIn, hamong, htrue]) hnegation
    · rename_i hfalse
      exact descend_plain hvisit hground hid hreads hknown
        (fun role => by simp [heq, Shape.testsIn, hamong, hfalse])
        (Term.negated?_of_not hnegation kids) (by simp [hnegation])
  · rename_i op postfixed type heq
    have htests : ∀ role, face.shape.testsIn role = false := fun role => by
      simp [heq, Shape.testsIn]
    split
    · rename_i hnot
      exact visitNegation_becomes hvisit hground hid hreads (by simp [Named, heq]) htests
        (by simp [heq, Shape.isNegation, hnot])
    · rename_i hnot
      have hnegation : face.shape.isNegation = false := by simp [heq, Shape.isNegation, hnot]
      exact descend_plain hvisit hground hid hreads (by simp [Named, heq]) htests
        (Term.negated?_of_not hnegation kids) (by simp [hnegation])
  · rename_i hif hwhile hconditional hbinary hunary
    have hnegation : face.shape.isNegation = false := by
      unfold Shape.isNegation
      split <;> simp_all
    refine descend_plain hvisit hground hid hreads (fun op type h => (hbinary op type h).elim)
      (fun role => ?_) (Term.negated?_of_not hnegation kids) (by simp [hnegation])
    unfold Shape.testsIn
    split <;> simp_all

end

end TruthTests

end UnitySharp
