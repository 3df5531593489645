import UnitySharp.Proofs.Convert.Linked

/-!
# Casts in a tree

After the two passes that put in casts, there is nothing left to cast where a value meets a declared
type, nothing but casts has been added, and every node is beneath the node that held it, or beneath
one new cast there.
-/

namespace UnitySharp

open UnitySharp.Tree Pass Casts List

variable {term before after new : Term} {s t : Tree} {id : NodeId}

namespace Casts

variable {old : Term}

theorem Recast.occurs (h : Recast before after) (hoccurs : before.Occurs old) :
    ∃ new, after.Occurs new ∧ Recast old new := by
  induction hoccurs with
  | refl => exact ⟨after, Relation.ReflTransGen.refl, h⟩
  | @tail holder kid _ hkid ih =>
    obtain ⟨new, hnew, hrecast⟩ := ih
    cases holder
    obtain ⟨kid', hkid', hcase⟩ := (recast_node_iff.mp hrecast).2.2.exists_right hkid
    rcases hcase with hsame | ⟨type, inner, rfl, hinner⟩
    · exact ⟨kid', hnew.tail hkid', hsame⟩
    · refine ⟨inner, (hnew.tail hkid').tail ?_, hinner⟩
      simp [Term.cast, allKids_cons, Occupants.toList]

theorem Recast.place (h : Recast old new) (hold : s.Reads s.Has old id) {place : NodeId}
    (hnew : t.Reads s.Has new place) : place = id := by
  cases old
  have horigin : new.origin = some id :=
    (recast_node_iff.mp h).1.trans ((hold.originates id).mpr ⟨hold.has, rfl⟩)
  exact ((hnew.originates id).mp horigin).2.symm

end Casts

namespace Tree

variable {known : NodeId → Prop} {child : NodeId}

def typeBelow (t : Tree) (id : NodeId) (role : Role) : Option Ty :=
  (t.only? id role).bind t.typeOf

/-- From one tree to the next, casts have been put in where values meet declared types. -/
structure CastIn (s t : Tree) : Prop where
  /-- The term at the root is the one from before with casts put in, at most one around each
  node. -/
  changed : ∃ before after, s.Reads s.Has before s.root ∧ t.Reads s.Has after t.root ∧
    Recast before after
  /-- What is new is a cast or the type that a new cast names. -/
  added : ∀ id, t.Beneath t.root id → ¬s.Beneath s.root id → ¬s.Has id ∧ (t.kind id = .cast ∨
    (t.kind id = .typeRef ∧ ∃ cast, t.parent id = some cast ∧ ¬s.Has cast ∧ t.kind cast = .cast))
  /-- Every node is there, beneath the one that held it or beneath one new cast. -/
  kept : ∀ id child, s.Beneath s.root id → child ∈ s.children id → t.Beneath t.root child ∧
    (t.parent child = some id ∨
      ∃ cast, ¬s.Has cast ∧ t.kind cast = .cast ∧ t.parent child = some cast ∧
        t.parent cast = some id)
  assigned : ∀ id op type, t.Beneath t.root id → t.shape id = .binary op type → op.is "=" = true →
    Ty.Agree (t.typeBelow id .left) (t.typeBelow id .right)
  initial : ∀ id, t.Beneath t.root id → t.kind id = .declaration ∨ t.kind id = .field →
    Ty.Agree (t.typeBelow id .typeRef) (t.typeBelow id .initializer)
  passed : ∀ id callee, t.Beneath t.root id → t.kind id = .invocation → t.binding id = some callee →
    callee.kind = .method ∨ callee.kind = .constructor →
      ∀ item ∈ (t.listed id .arguments).zip callee.parameters, item.2.byRef = false →
        Ty.Agree item.2.type (t.typeOf item.1)
  returned : ∀ id, t.Beneath t.root id → t.kind id = .returnStatement →
    Ty.Agree (t.returns? id) (t.typeBelow id .expression)
  compared : ∀ id op type, t.Beneath t.root id → t.shape id = .binary op type →
    op.isAmong ["==", "!="] = true →
    Ty.enumMismatch (t.typeBelow id .left) (t.typeBelow id .right) = false

theorem Reads.agrees {agrees equal : Option Ty → Option Ty → Prop} {term : Term} {top : NodeId}
    (h : t.Reads known term top) (htop : t.Standing top)
    (hagrees : AgreesThroughout agrees equal term (t.returns? top)) (hbelow : t.Beneath top id) :
    ∃ origin face kids, t.Reads known (.node origin face kids) id ∧
      SitesAgree agrees equal (t.returns? id) face kids := by
  suffices ∃ other, t.Reads known other id ∧ AgreesThroughout agrees equal other (t.returns? id) by
    obtain ⟨⟨origin, face, kids⟩, hreads, hagrees⟩ := this
    exact ⟨origin, face, kids, hreads, (agreesThroughout_node_iff.mp hagrees).1⟩
  induction hbelow with
  | refl => exact ⟨term, h, hagrees⟩
  | @tail holder low hholder hlow ih =>
    obtain ⟨⟨origin, face, kids⟩, hreads, hagrees⟩ := ih
    obtain ⟨kid, hkid, hread⟩ := hreads.kids.exists_left hlow
    refine ⟨kid, hread, ?_⟩
    rw [returns?_child hreads (htop.beneath hholder) hlow]
    exact (agreesThroughout_node_iff.mp hagrees).2 kid hkid

theorem Reads.fresh {place : NodeId} (h : t.Reads known new place) (horigin : new.origin = none) :
    ¬known place := by
  intro hknown
  have hsome := (h.originates place).mpr ⟨hknown, rfl⟩
  rw [horigin] at hsome
  exact absurd hsome (by simp)

theorem Reads.cast_kind {type : Ty} {operand : Term} (h : t.Reads known (.cast type operand) id) :
    t.kind id = .cast :=
  h.kind_eq

section

variable (hbefore : s.Reads s.Has before s.root) (hafter : t.Reads s.Has after t.root)
  (hrecast : Recast before after) (hsound : t.Sound)

include hbefore hafter hrecast in
theorem exists_recast (hbelow : s.Beneath s.root id) :
    ∃ old new, before.Occurs old ∧ Recast old new ∧ s.Reads s.Has old id ∧ t.Reads s.Has new id ∧
      t.Beneath t.root id := by
  obtain ⟨old, hold, hread⟩ := hbefore.occurs_of_beneath hbelow
  obtain ⟨new, hnew, hcase⟩ := hrecast.occurs hold
  obtain ⟨place, hplace, hread'⟩ := hafter.beneath_of_occurs hnew
  obtain rfl := hcase.place hread hread'
  exact ⟨old, new, hold, hcase, hread, hread', hplace⟩

include hbefore hafter hrecast hsound in
theorem kept_of_recast (hbelow : s.Beneath s.root id) (hchild : child ∈ s.children id) :
    t.Beneath t.root child ∧ (t.parent child = some id ∨
      ∃ cast, ¬s.Has cast ∧ t.kind cast = .cast ∧ t.parent child = some cast ∧
        t.parent cast = some id) := by
  have hroot : t.Standing t.root := hsound.standing
  obtain ⟨⟨origin, face, kids⟩, new, _, hcase, hread, hread', hplace⟩ :=
    exists_recast hbefore hafter hrecast hbelow
  have hidT : t.Standing id := hroot.beneath hplace
  obtain ⟨kid, hkid, hkidReads⟩ := hread.kids.exists_left hchild
  obtain ⟨kid', hkid', hnew⟩ := (recast_node_iff.mp hcase).2.2.exists_right hkid
  obtain ⟨c, hc, hcReads⟩ := hread'.kids.exists_right hkid'
  have hparent := hidT.intact.parent_child hc
  rcases hnew with hsame | ⟨type, inner, rfl, hinner⟩
  · obtain rfl := hsame.place hkidReads hcReads
    exact ⟨hplace.tail hc, Or.inl hparent⟩
  · have hoperand : inner ∈ allKids (Term.cast type inner).kids := by
      simp [Term.cast, allKids_cons, Occupants.toList]
    obtain ⟨low, hlow, hlowReads⟩ := hcReads.kids.exists_right hoperand
    obtain rfl := hinner.place hkidReads hlowReads
    refine ⟨(hplace.tail hc).tail hlow,
      Or.inr ⟨c, hcReads.fresh rfl, hcReads.cast_kind, ?_, hparent⟩⟩
    exact (hidT.child hc).intact.parent_child hlow

include hbefore hafter hrecast hsound in
theorem added_of_recast (hbelow : t.Beneath t.root id) (hnew : ¬s.Beneath s.root id) :
    ¬s.Has id ∧ (t.kind id = .cast ∨
      (t.kind id = .typeRef ∧ ∃ cast, t.parent id = some cast ∧ ¬s.Has cast ∧
        t.kind cast = .cast)) := by
  have hroot : t.Standing t.root := hsound.standing
  -- What is read at a node beneath the root comes from before, or is a cast of such a term, or the
  -- type of one.
  have hread : ∃ term, t.Reads s.Has term id ∧ ((∃ old, before.Occurs old ∧ Recast old term) ∨
      (∃ type inner old, term = .cast type inner ∧ before.Occurs old ∧ Recast old inner) ∨
      ∃ type, term = .node none ⟨.typeRef (some type), none, none, []⟩ [] ∧
        ∃ cast, t.parent id = some cast ∧ ¬s.Has cast ∧ t.kind cast = .cast) := by
    clear hnew
    induction hbelow with
    | refl => exact ⟨after, hafter, Or.inl ⟨before, Relation.ReflTransGen.refl, hrecast⟩⟩
    | @tail holder low hholder hlow ih =>
      obtain ⟨term, hterm, hcase⟩ := ih
      obtain ⟨kid, hkid, hkidReads⟩ := hterm.kids.exists_left hlow
      refine ⟨kid, hkidReads, ?_⟩
      rcases hcase with ⟨old, hold, hsame⟩ | ⟨type, inner, old, rfl, hold, hinner⟩ | ⟨type, rfl, _⟩
      · cases old
        obtain ⟨below, hbelow, hcase⟩ := (recast_node_iff.mp hsame).2.2.exists_left hkid
        rcases hcase with hsame | ⟨type, inner, rfl, hinner⟩
        · exact Or.inl ⟨below, hold.tail hbelow, hsame⟩
        · exact Or.inr (Or.inl ⟨type, inner, below, rfl, hold.tail hbelow, hinner⟩)
      · simp only [Term.cast, Term.kids_node, allKids_cons, allKids_nil, Occupants.toList,
          append_nil, singleton_append, mem_cons, not_mem_nil, or_false] at hkid
        rcases hkid with rfl | rfl
        · refine Or.inr (Or.inr ⟨type, rfl, holder, ?_, hterm.fresh rfl, hterm.cast_kind⟩)
          exact (hroot.beneath hholder).intact.parent_child hlow
        · exact Or.inl ⟨old, hold, hinner⟩
      · exact absurd hkid (by simp [allKids_nil])
  obtain ⟨term, hterm, hcase⟩ := hread
  rcases hcase with ⟨old, hold, hsame⟩ | ⟨type, inner, old, rfl, _, _⟩ | ⟨type, rfl, hcast⟩
  · obtain ⟨place, hplace, hread⟩ := hbefore.beneath_of_occurs hold
    exact absurd (hsame.place hread hterm ▸ hplace) hnew
  · exact ⟨hterm.fresh rfl, Or.inl hterm.cast_kind⟩
  · exact ⟨hterm.fresh rfl, Or.inr ⟨hterm.kind_eq, hcast⟩⟩

end

theorem exists_item {arguments : List Term} {ids : List NodeId}
    (h : List.Forall₂ (t.Reads known) arguments ids) {parameters : List ParameterInfo}
    {item : NodeId × ParameterInfo} (hitem : item ∈ ids.zip parameters) :
    ∃ term, (term, item.2) ∈ arguments.zip parameters ∧ t.Reads known term item.1 := by
  induction h generalizing parameters with
  | nil => exact absurd hitem (by simp)
  | @cons argument c arguments ids hfirst _ ih =>
    cases parameters with
    | nil => exact absurd hitem (by simp)
    | cons parameter parameters =>
      rw [zip_cons_cons, mem_cons] at hitem
      rcases hitem with rfl | hitem
      · exact ⟨argument, by simp, hfirst⟩
      · obtain ⟨term, hmem, hread⟩ := ih hitem
        exact ⟨term, mem_cons_of_mem _ hmem, hread⟩

theorem castIn_of_reads (hbefore : s.Reads s.Has before s.root) (hplain : ReturnsPlain before)
    (hafter : t.Reads s.Has (castedEnums (castedValues before)) t.root) (hsound : t.Sound) :
      CastIn s t := by
  have hroot : t.Standing t.root := hsound.standing
  have hrecast : Recast before (castedEnums (castedValues before)) := recast_casted hplain none
  have hreturns : t.returns? t.root = none := by
    rw [returns?, ancestor?_top hsound.top, Option.bind_none]
  have hagrees := hreturns ▸ agreesThroughout_castedEnums hplain
  have hsites := fun {id : NodeId} (hbelow : t.Beneath t.root id) =>
    hafter.agrees hroot hagrees hbelow
  refine ⟨⟨before, _, hbefore, hafter, hrecast⟩, fun id =>
    added_of_recast hbefore hafter hrecast hsound, fun id child =>
    kept_of_recast hbefore hafter hrecast hsound, ?_, ?_, ?_, ?_, ?_⟩
  · intro id op type hbelow hshape hassign
    obtain ⟨origin, face, kids, hreads, hsite⟩ := hsites hbelow
    rw [typeBelow, typeBelow, hreads.kidType_eq, hreads.kidType_eq]
    exact hsite.assigned op type ((congrArg Face.shape hreads.face_eq).symm.trans hshape) hassign
  · intro id hbelow hkind
    obtain ⟨origin, face, kids, hreads, hsite⟩ := hsites hbelow
    rw [typeBelow, typeBelow, hreads.kidType_eq, hreads.kidType_eq]
    rw [hreads.kind_eq] at hkind
    exact hsite.initial hkind
  · intro id callee hbelow hkind hbinding hcallee item hitem hvalue
    obtain ⟨origin, face, kids, hreads, hsite⟩ := hsites hbelow
    have hcallee' : callee? valueConversion kids = some callee := by
      rw [← callee?_eq hreads, hbinding]
      rcases hcallee with hcallee | hcallee <;> simp [Option.filter, hcallee, valueConversion]
    obtain ⟨term, hterm, hread⟩ := exists_item (hreads.kids.at_role .arguments).toList hitem
    rw [hread.type_eq]
    rw [hreads.kind_eq] at hkind
    exact hsite.passed hkind callee hcallee' (term, item.2) hterm hvalue
  · intro id hbelow hkind
    obtain ⟨origin, face, kids, hreads, hsite⟩ := hsites hbelow
    rw [typeBelow, hreads.kidType_eq]
    rw [hreads.kind_eq] at hkind
    exact hsite.returned hkind
  · intro id op type hbelow hshape hcompared
    obtain ⟨origin, face, kids, hreads, hsite⟩ := hsites hbelow
    rw [typeBelow, typeBelow, hreads.kidType_eq, hreads.kidType_eq]
    exact hsite.compared op type ((congrArg Face.shape hreads.face_eq).symm.trans hshape) hcompared

end Tree

/-- On any sound tree in which no operator stands for the return type of a method: if the two steps
that put in casts end normally, one after the other, values agree with declared types, by casts
alone and by one for each at most. -/
theorem Step.castEnums_castIn {before middle after : Session} (hsound : before.tree.Sound)
    (hplain : ∀ id type, before.tree.Beneath before.tree.root id →
      (before.tree.kind id).isMethod = true → before.tree.only? id .returnType = some type →
      before.tree.kind type ≠ .binary)
    (hvalues : Step.castValues.run before = .ok () middle)
    (henums : Step.castEnums.run middle = .ok () after) :
    CastIn before.tree after.tree := by
  obtain ⟨term, hterm⟩ := Reads.exists_of_intact before.tree.Has hsound.intact
  have hfamiliar : Familiar before.tree.Has before.tree := ⟨hsound.tidy, fun _ h => h⟩
  have hreturns : ReturnsPlain term := returnsPlain_of_reads hterm hplain
  obtain ⟨hmiddle, hsparesM, _, hcastsM, hreadsM⟩ :=
    everywhere_castsBy settles_arithmetic hfamiliar hsound hterm () middle hvalues
  obtain ⟨rfl, _⟩ := hcastsM hreturns
  have hsoundM := hsparesM.sound hsound
  obtain ⟨_, hsparesA, _, hcastsA, hreadsA⟩ :=
    everywhere_castsBy settles_equality hmiddle hsoundM hreadsM () after henums
  obtain ⟨rfl, _⟩ := hcastsA fun _ _ _ _ _ => trivial
  exact castIn_of_reads hterm hreturns hreadsA (hsparesA.sound hsoundM)

/-! ## Samples -/

def Json.castDocument (parameters : List Json) (returnType : Json) (statements : List Json) :
    Json :=
  .record [("types", .record [("Color", .record [("kind", .text "enum")])]),
    ("module", nodeOf "Module" [("members", .list [nodeOf "TypeDef" [("name", .text "C"),
      ("members", .list [nodeOf "Method" [("name", .text "M"), ("params", .list parameters),
        ("return_type", returnType),
        ("body", nodeOf "Block" [("statements", .list statements)])]])]])])]

def Json.typedName (name type : String) : Json :=
  nodeOf "Reference" [("name", .text name), ("type", .text type)]

def Json.operation (op type : String) (left right : Json) : Json :=
  nodeOf "BinaryOp" [("op", .text op), ("left", left), ("right", right), ("type", .text type)]

/-- `int M() { count = half; color == count; return half; }` with a number `half` and an enumeration
`color`. -/
def Json.castSample : Json :=
  let statement (expression : Json) := nodeOf "ExpressionStatement" [("expr", expression)]
  castDocument [] (nodeOf "TypeRef" [("type", .text "int")])
    [statement (operation "=" "int" (typedName "count" "int") (typedName "half" "float")),
      statement (operation "==" "bool" (typedName "color" "Color") (typedName "count" "int")),
      nodeOf "Return" [("expr", typedName "half" "float")]]

/-- A method whose return type is `count + any`, with `return half` among its parameters. -/
def Json.earlyReturnSample : Json :=
  castDocument [nodeOf "Return" [("expr", typedName "half" "float")]]
    (operation "+" "object" (typedName "count" "int") (typedName "any" "object")) []

def Tree.returnsPlain (t : Tree) : Bool :=
  (List.range t.size).all fun n => !(t.kind (.slot n)).isMethod ||
    ((t.only? (.slot n) .returnType).all fun type => t.kind type != .binary)

theorem Tree.ne_binary_of_returnsPlain (h : t.returnsPlain = true) (hsound : t.Sound)
    {type : NodeId} (hbelow : t.Beneath t.root id) (hmethod : (t.kind id).isMethod = true)
    (htype : t.only? id .returnType = some type) :
    t.kind type ≠ .binary := by
  have hslot : t.HasSlot id := (hsound.intact.beneath hbelow).hasSlot
  cases id with
  | loose _ => exact hslot.elim
  | slot n =>
    have hplain := all_eq_true.mp h n (mem_range.mpr hslot)
    simpa [hmethod, htype] using hplain

theorem Step.castEnums_castSample :
    ∃ document middle after, readDocument Json.castSample .null = .ok document ∧
      Step.castValues.run ⟨document.tree, .ofVerbosity 0 none⟩ = .ok () middle ∧
        Step.castEnums.run middle = .ok () after ∧ after.tree.size = document.tree.size + 6 ∧
        CastIn document.tree after.tree := by
  obtain ⟨document, hread, h⟩ := Json.exists_of_holds (show Json.castSample.holds (fun t =>
    (Session.mk t (.ofVerbosity 0 none)).runsTo Step.castValues.run fun _ middle =>
      middle.runsTo Step.castEnums.run fun _ after =>
        t.returnsPlain && after.tree.size == t.size + 6) = true by decide +kernel)
  obtain ⟨_, middle, hvalues, h⟩ := Session.exists_of_runsTo h
  obtain ⟨_, after, henums, hcheck⟩ := Session.exists_of_runsTo h
  rw [Bool.and_eq_true, beq_iff_eq] at hcheck
  have hsound := readDocument_sound hread
  exact ⟨document, middle, after, hread, hvalues, henums, hcheck.2, Step.castEnums_castIn hsound
    (fun _ _ hbelow hmethod htype => ne_binary_of_returnsPlain hcheck.1 hsound hbelow hmethod htype)
      hvalues henums⟩

/-- With an operator for a return type, a `return` that comes before it may be left without its
cast. -/
theorem Step.castEnums_earlyReturn : ∃ document middle after,
    readDocument Json.earlyReturnSample .null = .ok document ∧
      Step.castValues.run ⟨document.tree, .ofVerbosity 0 none⟩ = .ok () middle ∧
        Step.castEnums.run middle = .ok () after ∧ ¬CastIn document.tree after.tree := by
  obtain ⟨document, hread, h⟩ := Json.exists_of_holds (show Json.earlyReturnSample.holds (fun t =>
    (Session.mk t (.ofVerbosity 0 none)).runsTo Step.castValues.run fun _ middle =>
      middle.runsTo Step.castEnums.run fun _ ⟨t, _⟩ =>
        decide (t.root = .slot 0 ∧ .slot 1 ∈ t.children (.slot 0) ∧ .slot 2 ∈ t.children (.slot 1) ∧
          .slot 3 ∈ t.children (.slot 2) ∧ t.kind (.slot 3) = .returnStatement) &&
            Ty.needsCast (t.returns? (.slot 3)) (t.typeBelow (.slot 3) .expression)) = true by
              decide +kernel)
  obtain ⟨_, middle, hvalues, h⟩ := Session.exists_of_runsTo h
  obtain ⟨_, after, henums, hcheck⟩ := Session.exists_of_runsTo h
  rw [Bool.and_eq_true, decide_eq_true_eq] at hcheck
  obtain ⟨⟨hroot, hone, htwo, hthree, hkind⟩, hneeded⟩ := hcheck
  refine ⟨document, middle, after, hread, hvalues, henums, fun hcasts => ?_⟩
  have hbelow : after.tree.Beneath after.tree.root (.slot 3) :=
    hroot ▸ ((Relation.ReflTransGen.single hone).tail htwo).tail hthree
  exact absurd hneeded (by simp [(hcasts.returned (.slot 3) hbelow hkind).1])

end UnitySharp
