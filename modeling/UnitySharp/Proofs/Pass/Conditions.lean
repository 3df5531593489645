import UnitySharp.Proofs.Convert.Linked

/-!
# Conditions before and after

The tests for truth that the pass has written are complete, and a condition holds after the pass
exactly if it held before.  `Term.Holds` takes a comparison of something with the zero of its type
as the test of that thing for truth. Negations have to be typed as truth values or not at all: a
negation of another type would be compared with a zero of that type, and the equality that takes its
place would not.
-/

namespace UnitySharp

open UnitySharp.Tree Pass List

variable {term : Term}

namespace Term

variable {origin : Option NodeId} {face : Face} {kids results : Kids Term} {zero : Term}
  {role : Role} {given : Option NodeId → Prop} {shape : Shape}

/-! ## Truth -/

/-- The shapes in a term, without origins, places in the source and comments. -/
def bare : Term → Term :=
  fold fun _ face _ outcomes => .node none ⟨face.shape, none, none, []⟩ outcomes

theorem bare_node :
    bare (.node origin face kids) = .node none ⟨face.shape, none, none, []⟩ (mapKids bare kids) :=
  fold_node _ _ _ _

/-- A comparison of something with the zero of its type. -/
def ComparesWithZero (kids : Kids Term) : Prop :=
  ∃ left right zero, kidsAt .left kids = .one left ∧ kidsAt .right kids = .one right ∧
    left.face.zero? = some zero ∧ right.bare = zero.bare

def truthIn (role : Role) (outcomes : Kids Prop) : Prop :=
  match kidsAt role outcomes with
  | .one outcome => outcome
  | _ => False

open Classical in
/-- Whether a node is true, given the truth of its kids. -/
def truth (given : Option NodeId → Prop) (origin : Option NodeId) (face : Face) (kids : Kids Term)
    (outcomes : Kids Prop) : Prop :=
  match face.shape with
  | .binary op _ =>
    if op.is "and" then truthIn .left outcomes ∧ truthIn .right outcomes
    else if op.is "or" then truthIn .left outcomes ∨ truthIn .right outcomes
    else if op.is "!=" ∧ ComparesWithZero kids then truthIn .left outcomes
    else if op.is "==" ∧ ComparesWithZero kids then ¬truthIn .left outcomes
    else given origin
  | .unary op _ _ => if op.is "not" then ¬truthIn .operand outcomes else given origin
  | _ => given origin

/-- Whether an expression is true, if the truth of everything but logical operators and tests is
given. -/
def Holds (given : Option NodeId → Prop) : Term → Prop :=
  fold (truth given)

theorem holds_node (given : Option NodeId → Prop) (origin : Option NodeId) (face : Face)
    (kids : Kids Term) :
    Holds given (.node origin face kids) = truth given origin face kids
    (mapKids (Holds given) kids) :=
  fold_node _ _ _ _

/-- Every negation in a term is typed as a truth value or not at all. -/
def NegationsTyped (term : Term) : Prop :=
  ∀ other, term.Occurs other → other.face.shape.isNegation = true →
    ∀ type, other.face.type?.join = some type → type.isBoolean = true

theorem NegationsTyped.kid (h : NegationsTyped (.node origin face kids)) {kid : Term}
    (hkid : kid ∈ allKids kids) :
    kid.NegationsTyped :=
  fun other hother => h other (occurs_node_iff.mpr (Or.inr ⟨kid, hkid, hother⟩))

theorem inert_bare_iff : term.bare.Inert ↔ term.Inert := by
  induction term with
  | node origin face kids ih =>
    rw [bare_node, inert_node_iff, inert_node_iff, allKids_mapKids, forall_mem_map]
    exact and_congr_right fun _ => forall₂_congr fun kid hkid => ih kid hkid

theorem tested_eq_of_inert (h : (term.tested false).Inert) : term.tested false = term := by
  induction term with
  | node origin face kids ih =>
    rw [tested_node, inPlace_false] at h
    unfold withKids at h
    split at h
    · exact absurd h fun h => (inert_node_iff.mp h).1 (by simp [Shape.kind])
    · rename_i hnegated
      obtain ⟨hkind, hkids⟩ := inert_node_iff.mp h
      rw [tested_plain (fun entry _ => testsIn_of_inert hkind entry.1) hnegated]
      conv_rhs => rw [← mapKids_id kids]
      rw [atRoles_const fun entry _ => by rw [testsIn_of_inert hkind], allKids_mapKids,
        forall_mem_map] at hkids
      rw [mapKids_congr fun kid hkid => ih kid hkid (hkids kid hkid)]

theorem bare_tested_iff (hzero : zero.Inert) :
    (term.tested false).bare = zero.bare ↔ term.bare = zero.bare := by
  constructor
  · intro h
    have hinert : (term.tested false).Inert := inert_bare_iff.mp (h ▸ inert_bare_iff.mpr hzero)
    rwa [tested_eq_of_inert hinert] at h
  · intro h
    have hinert : term.Inert := inert_bare_iff.mp (h ▸ inert_bare_iff.mpr hzero)
    rwa [hinert.tested_eq]

theorem zero?_of_boolean (h : ∀ type, face.type?.join = some type → type.isBoolean = true) :
    face.zero? = none := by
  unfold Face.zero?
  cases htype : face.type? with
  | none => rfl
  | some known =>
    cases known with
    | none => rfl
    | some type =>
      have hboolean := h type (by rw [htype]; rfl)
      simp [TruthTests.zeroOf?, hboolean]

theorem zero?_withKids_of_typed (h : NegationsTyped (.node origin face kids)) :
    (withKids origin face kids results).face.zero? = face.zero? := by
  unfold withKids
  split
  · rename_i zero hnegated
    obtain ⟨hnegation, _⟩ := exists_of_negated? hnegated
    exact (zero?_of_boolean (h _ Relation.ReflTransGen.refl hnegation)).symm
  · rfl

theorem zero?_tested_of_typed (h : term.NegationsTyped) :
    (term.tested false).face.zero? = term.face.zero? := by
  obtain ⟨origin, face, kids⟩ := term
  rw [tested_node, inPlace_false]
  exact zero?_withKids_of_typed h

theorem truthIn_one (h : kidsAt role kids = .one term) :
    truthIn role (mapKids (Holds given) kids) = Holds given term := by
  simp [truthIn, h, Occupants.map]

theorem mem_allKids_of_one (h : kidsAt role kids = .one term) : term ∈ allKids kids := by
  apply (kidsAt_sublist_allKids role kids).subset
  simp [h, Occupants.toList]

theorem testsIn_of_isNegation (h : face.shape.isNegation = true) (role : Role) :
    face.shape.testsIn role = false := by
  unfold Shape.isNegation at h
  split at h
  · rename_i hshape
    rw [hshape]
    rfl
  · exact absurd h (by simp)

theorem truthIn_atRoles {f : Role → Term → Term}
    (h : ∀ kid ∈ allKids kids, ∀ role, Holds given (f role kid) ↔ Holds given kid) (role : Role) :
    truthIn role (mapKids (Holds given) (atRoles f kids)) ↔
      truthIn role (mapKids (Holds given) kids) := by
  unfold truthIn
  rw [kidsAt_mapKids, kidsAt_mapKids, kidsAt_atRoles]
  cases hkid : kidsAt role kids with
  | empty => rfl
  | one kid => exact h kid (mem_allKids_of_one hkid) role
  | many list => rfl

theorem comparesWithZero_atRoles (h : ∀ kid ∈ allKids kids, kid.NegationsTyped) :
    ComparesWithZero (atRoles (fun _ term => tested term false) kids) ↔ ComparesWithZero kids := by
  have hone : ∀ {role : Role} {kid : Term},
      kidsAt role (atRoles (fun _ term => tested term false) kids) = .one kid ↔ ∃ old,
      kidsAt role kids = .one old ∧ kid = tested old false := by
    intro role kid
    rw [kidsAt_atRoles]
    cases hkid : kidsAt role kids <;> simp [Occupants.map, eq_comm]
  constructor
  · rintro ⟨left, right, zero, hleft, hright, hzero, hbare⟩
    obtain ⟨oldLeft, holdLeft, rfl⟩ := hone.mp hleft
    obtain ⟨oldRight, holdRight, rfl⟩ := hone.mp hright
    rw [zero?_tested_of_typed (h oldLeft (mem_allKids_of_one holdLeft))] at hzero
    exact ⟨oldLeft, oldRight, zero, holdLeft, holdRight, hzero,
      (bare_tested_iff (Face.zero?_inert hzero)).mp hbare⟩
  · rintro ⟨left, right, zero, hleft, hright, hzero, hbare⟩
    refine ⟨left.tested false, right.tested false, zero, hone.mpr ⟨left, hleft, rfl⟩,
      hone.mpr ⟨right, hright, rfl⟩, ?_, (bare_tested_iff (Face.zero?_inert hzero)).mpr hbare⟩
    rwa [zero?_tested_of_typed (h left (mem_allKids_of_one hleft))]

theorem truth_congr {others : Kids Term} {outcomes outcomes' : Kids Prop}
    (htruth : ∀ role, truthIn role outcomes ↔ truthIn role outcomes')
    (hcompares : (∀ role, face.shape.testsIn role = false) →
      (ComparesWithZero kids ↔ ComparesWithZero others)) :
    truth given origin face kids outcomes ↔ truth given origin face others outcomes' := by
  unfold truth
  split
  · rename_i op type hshape
    split
    · exact and_congr (htruth _) (htruth _)
    · split
      · exact or_congr (htruth _) (htruth _)
      · rename_i hand hor
        have hzero := hcompares fun role => by
          cases op <;> simp_all [Shape.testsIn, Name.isAmong, Name.is]
        by_cases hkids : ComparesWithZero kids
        · simp only [hkids, hzero.mp hkids, htruth]
        · have hothers : ¬ComparesWithZero others := fun hothers => hkids (hzero.mpr hothers)
          simp only [hkids, hothers, htruth]
  · simp only [htruth]
  · rfl

theorem comparesWithZero_of_zero? (hzero : term.face.zero? = some zero) :
    ComparesWithZero [(.left, .one term), (.right, .one zero)] :=
  ⟨term, zero, zero, by simp [kidsAt], by simp [kidsAt], hzero, rfl⟩

/-- A new comparison with a zero tells the truth of its left side, or denies it. -/
theorem holds_compared_ne (hzero : term.face.zero? = some zero) (position : Option Position) :
    Holds given (compared "!=" (.one term) zero position) ↔ Holds given term := by
  rw [compared, holds_node]
  simp [truth, Name.is, comparesWithZero_of_zero? hzero, truthIn, kidsAt, mapKids, Occupants.map]

theorem holds_compared_eq (hzero : term.face.zero? = some zero) (position : Option Position) :
    Holds given (compared "==" (.one term) zero position) ↔ ¬Holds given term := by
  rw [compared, holds_node]
  simp [truth, Name.is, comparesWithZero_of_zero? hzero, truthIn, kidsAt, mapKids, Occupants.map]

theorem holds_negation (hnegation : face.shape.isNegation = true)
    (hoperand : kidsAt .operand kids = .one term) :
    Holds given (.node origin face kids) ↔ ¬Holds given term := by
  rw [holds_node, ← truthIn_one hoperand]
  unfold Shape.isNegation at hnegation
  unfold truth
  split at hnegation
  · rename_i hshape
    rw [hshape]
    simp [hnegation]
  · exact absurd hnegation (by simp)

theorem holds_tested (h : term.NegationsTyped) (expected : Bool) :
    Holds given (term.tested expected) ↔ Holds given term := by
  induction term generalizing expected with
  | node origin face kids ih =>
    have hkids : ∀ kid ∈ allKids kids, ∀ role,
        Holds given (kid.tested (face.shape.testsIn role)) ↔ Holds given kid :=
      fun kid hkid role => ih kid hkid (h.kid hkid) _
    have hresult : Holds given (withKids origin face kids
        (atRoles (fun role term => tested term (face.shape.testsIn role)) kids)) ↔
          Holds given (.node origin face kids) := by
      unfold withKids
      split
      · rename_i zero hnegated
        obtain ⟨hnegation, operand, hoperand, hzero⟩ := exists_of_negated? hnegated
        have hmem : operand ∈ allKids kids := mem_allKids_of_one hoperand
        have htests : face.shape.testsIn .operand = false :=
          testsIn_of_isNegation hnegation .operand
        rw [kidsAt_atRoles, hoperand, Occupants.map, htests,
          holds_compared_eq ((zero?_tested_of_typed (h.kid hmem)).trans hzero),
            ih operand hmem (h.kid hmem),
          holds_negation hnegation hoperand]
      · rw [holds_node, holds_node]
        refine truth_congr (truthIn_atRoles hkids) fun htests => ?_
        simp only [htests]
        exact comparesWithZero_atRoles fun kid hkid => h.kid hkid
    rw [tested_node, inPlace]
    split
    · rename_i zero hzero
      have hface : face.zero? = some zero := by
        cases expected with
        | false => exact absurd hzero (by simp)
        | true => simpa using hzero
      rw [holds_compared_ne ((zero?_withKids_of_typed h).trans hface), hresult]
    · exact hresult

/-! ## Occurrences -/

def Laid (term : Term) : Prop :=
  ∀ other, term.Occurs other → other.kids.map Prod.fst = other.face.shape.kind.layout.map Prod.fst

theorem mem_atRoles_of_mem {α β : Type} {f : Role → α → β} {kids : Kids α} {a : α}
    (h : a ∈ allKids kids) :
    ∃ role, f role a ∈ allKids (atRoles f kids) := by
  obtain ⟨entry, hentry, ha⟩ := mem_flatMap.mp h
  refine ⟨entry.1, mem_flatMap.mpr ⟨(entry.1, entry.2.map (f entry.1)), mem_map_of_mem hentry, ?_⟩⟩
  rw [Occupants.toList_map]
  exact mem_map_of_mem ha

theorem tested_occurs_false (term : Term) (expected : Bool) :
    (term.tested expected).Occurs (term.tested false) := by
  cases expected with
  | false => exact Relation.ReflTransGen.refl
  | true =>
    rw [tested_true, inPlace]
    split
    · exact Relation.ReflTransGen.single
        (by simp [compared, allKids_cons, allKids_nil, Occupants.toList])
    · exact Relation.ReflTransGen.refl

theorem isNegation_of_branch (h : shape.kind ∈ [.ifStatement, .whileLoop, .conditional]) :
    shape.isNegation = false := by
  cases shape <;> simp_all [Shape.kind, Shape.isNegation]

theorem testsIn_condition (h : shape.kind ∈ [.ifStatement, .whileLoop, .conditional]) :
    shape.testsIn .condition = true := by
  cases shape <;> simp_all [Shape.kind, Shape.testsIn]

theorem eq_operand {kid operand : Term}
    (hroles : kids.map Prod.fst = face.shape.kind.layout.map Prod.fst)
    (hnegation : face.shape.isNegation = true) (hoperand : kidsAt .operand kids = .one operand)
    (hkid : kid ∈ allKids kids) : kid = operand := by
  unfold Shape.isNegation at hnegation
  split at hnegation
  · rename_i hshape
    rw [hshape] at hroles
    obtain ⟨⟨role, occupants⟩, rfl, rfl⟩ := map_eq_singleton_iff.mp hroles
    rw [kidsAt, if_pos rfl] at hoperand
    simpa [allKids_cons, allKids_nil, hoperand, Occupants.toList] using hkid
  · exact absurd hnegation (by simp)

theorem occurs_tested (h : term.Laid) {other : Term} (hoccurs : term.Occurs other)
    (expected : Bool) :
    (term.tested expected).Occurs (other.tested false) := by
  refine (tested_occurs_false term expected).trans ?_
  induction term generalizing expected with
  | node origin face kids ih =>
    rcases occurs_node_iff.mp hoccurs with rfl | ⟨kid, hkid, hbelow⟩
    · exact Relation.ReflTransGen.refl
    · have hlaid : kid.Laid := fun x hx => h x (occurs_node_iff.mpr (Or.inr ⟨kid, hkid, hx⟩))
      have hinner : ∀ expected, (kid.tested expected).Occurs (other.tested false) := fun expected =>
        (tested_occurs_false kid expected).trans (ih kid hkid hlaid hbelow expected)
      rw [tested_node, inPlace_false]
      unfold withKids
      split
      · rename_i zero hnegated
        obtain ⟨hnegation, operand, hoperand, _⟩ := exists_of_negated? hnegated
        cases eq_operand (h _ Relation.ReflTransGen.refl) hnegation hoperand hkid
        rw [kidsAt_atRoles, hoperand, Occupants.map]
        refine Relation.ReflTransGen.head ?_ (hinner (face.shape.testsIn .operand))
        simp [compared, allKids_cons, Occupants.toList]
      · obtain ⟨role, hrole⟩ := mem_atRoles_of_mem
          (f := fun role term => tested term (face.shape.testsIn role)) hkid
        exact Relation.ReflTransGen.head hrole (hinner _)

end Term

/-! ## The tree before and after -/

namespace Tree

variable {s t : Tree}

def zeroAt (t : Tree) (id : NodeId) : Option Draft :=
  (t.node id).type?.bind TruthTests.zeroOf?

theorem Reads.zeroAt_eq_none {known : NodeId → Prop} {id : NodeId} (h : t.Reads known term id)
    (hzero : term.face.zero? = none) : t.zeroAt id = none := by
  rw [Face.zero?, ← h.face_eq, Node.type?_face, Option.map_eq_none_iff] at hzero
  exact hzero

/-- From one tree to the next, tests for truth have been spelled out. -/
structure SpelledOut (s t : Tree) : Prop where
  /-- The tests are the only change: in the term at the root, what has been in a place where a truth
  value is expected is compared with its zero, and negations of other things have become
  equalities. -/
  changed : ∃ term, s.Reads s.Has term s.root ∧ t.Reads s.Has (term.tested false) t.root
  /-- Conditions and the operands of logical operators and negations are truth values. -/
  complete : ∀ id role child, t.Beneath t.root id →
    (t.shape id).testsIn role = true ∨ ((t.shape id).isNegation = true ∧ role = .operand) →
      t.only? id role = some child → t.zeroAt child = none
  /-- If negations were typed as truth values or not at all, each condition holds when it held
  before. -/
  truthful : (∀ id, s.Beneath s.root id → (s.shape id).isNegation = true →
      ∀ type, s.typeOf id = some type → type.isBoolean = true) →
    ∀ id condition, s.Beneath s.root id →
      (s.shape id).kind ∈ [.ifStatement, .whileLoop, .conditional] →
        s.only? id .condition = some condition → ∃ condition', t.Beneath t.root id ∧
          t.only? id .condition = some condition' ∧ ∀ before after, s.Reads s.Has before condition →
            t.Reads s.Has after condition' → ∀ given, before.Holds given ↔ after.Holds given

theorem spelledOut_of_reads (htidy : s.Tidy) (hbefore : s.Reads s.Has term s.root)
    (hafter : t.Reads s.Has (term.tested false) t.root) : SpelledOut s t where
  changed := ⟨term, hbefore, hafter⟩
  complete := by
    intro id role child hbelow hexpected honly
    obtain ⟨other, hoccurs, hother⟩ := hafter.occurs_of_beneath hbelow
    obtain ⟨origin, face, kids⟩ := other
    obtain ⟨kid, hkid, hread⟩ := hother.only honly
    have hshape : t.shape id = face.shape := congrArg Face.shape hother.face_eq
    rw [hshape] at hexpected
    refine hread.zeroAt_eq_none (Term.settled_tested term false _ hoccurs role kid.face hexpected
      ?_)
    rw [Term.kidFaces, kidsAt_mapKids, Term.kids, hkid]
    rfl
  truthful := by
    intro htyped id condition hbelow hkind honly
    obtain ⟨other, hoccurs, hother⟩ := hbefore.occurs_of_beneath hbelow
    have hlaid : term.Laid := by
      intro x hx
      obtain ⟨a, _, hread⟩ := hbefore.beneath_of_occurs hx
      cases x
      exact hread.roles htidy
    have hnegations : term.NegationsTyped := by
      intro x hx hnegation type htype
      obtain ⟨a, ha, hread⟩ := hbefore.beneath_of_occurs hx
      refine htyped a ha ?_ type ?_
      · rw [show s.shape a = x.face.shape from congrArg Face.shape hread.face_eq]
        exact hnegation
      · rw [typeOf, ← Node.type?_face, hread.face_eq]
        exact htype
    obtain ⟨place, hplace, hread⟩ :=
      hafter.beneath_of_occurs (Term.occurs_tested hlaid hoccurs false)
    obtain ⟨origin, face, kids⟩ := other
    have hshape : s.shape id = face.shape := congrArg Face.shape hother.face_eq
    rw [hshape] at hkind
    obtain ⟨kid, hkid, hkidReads⟩ := hother.only honly
    have htested : Term.tested (.node origin face kids) false =
        .node origin face (atRoles (fun role term => term.tested (face.shape.testsIn role))
          kids) := by
      rw [Term.tested_node, Term.inPlace_false, Term.withKids,
        Term.negated?_of_not (Term.isNegation_of_branch hkind)]
    rw [htested] at hread
    have horigin : origin = some id := (hother.originates id).mpr ⟨hother.has, rfl⟩
    obtain rfl : id = place := ((hread.originates id).mp horigin).2
    have hkid' :
        kidsAt .condition (atRoles (fun role term => term.tested (face.shape.testsIn role)) kids) =
        .one (kid.tested true) := by
      rw [kidsAt_atRoles, hkid, Term.testsIn_condition hkind, Occupants.map]
    obtain ⟨condition', honly', hread'⟩ := hread.only_of_kid hkid'
    refine ⟨condition', hplace, honly', fun before after hb ha given => ?_⟩
    rw [hb.unique hkidReads, ha.unique hread']
    refine (Term.holds_tested (fun x hx => hnegations x (hoccurs.trans ?_)) true).symm
    exact Relation.ReflTransGen.head (Term.mem_allKids_of_one hkid) hx

end Tree

/-- On any sound tree, the tests for truth are spelled out if the step ends normally. -/
theorem Step.testForTruth_spelledOut {before after : Session} (hsound : before.tree.Sound)
    (hrun : Step.testForTruth.run before = .ok () after) : SpelledOut before.tree after.tree := by
  obtain ⟨term, hterm⟩ := Reads.exists_of_intact before.tree.Has hsound.intact
  have hfamiliar : Familiar before.tree.Has before.tree := ⟨hsound.tidy, fun _ h => h⟩
  obtain ⟨_, _, _, ⟨rfl, _⟩, hreads⟩ :=
    everywhere_becomes TruthTests.rule_becomes hfamiliar hsound hterm () after hrun
  exact spelledOut_of_reads hsound.tidy hterm hreads

/-- `if (not count or label) { }` with a number and a string. -/
def Json.truthSample : Json :=
  let name (text type : String) := nodeOf "Reference" [("name", .text text), ("type", .text type)]
  let negation (operand : Json) :=
    nodeOf "UnaryOp" [("op", .text "not"), ("operand", operand), ("type", .text "bool")]
  methodDocument [] [nodeOf "If" [
    ("cond", nodeOf "BinaryOp" [("op", .text "or"), ("left", negation (name "count" "int")),
      ("right", name "label" "string"), ("type", .text "bool")]),
    ("then", nodeOf "Block" [])]]

theorem Step.testForTruth_truthSample :
    ∃ document after, readDocument Json.truthSample .null = .ok document ∧
      Step.testForTruth.run ⟨document.tree, .ofVerbosity 0 none⟩ = .ok () after ∧
      document.tree.size < after.tree.size ∧ SpelledOut document.tree after.tree := by
  obtain ⟨document, after, hread, hrun, hsize⟩ := Step.exists_of_runsWith
    (show Step.runsWith (fun t u => t.size < u.size) Json.truthSample .testForTruth =
      true by decide +kernel)
  exact ⟨document, after, hread, hrun, of_decide_eq_true hsize,
    Step.testForTruth_spelledOut (readDocument_sound hread) hrun⟩

end UnitySharp
