import UnitySharp.Proofs.Pass.TruthTests

/-!
# Tests for truth at rest

Wherever a truth value is expected, one run leaves one: what was compared with its zero is a
comparison now.  The visits that follow may turn a negation into an equality, but a truth value
stays one.
-/

namespace UnitySharp

open UnitySharp.Tree Pass

/-! ## Completeness -/

/-- Where a truth value is expected, by a branch, a logical operator or a negation, there is one. -/
def TruthTests.Settled (face : Face) (faces : Kids Face) : Prop :=
  ∀ role kid, face.shape.testsIn role = true ∨ (face.shape.isNegation = true ∧ role = .operand) →
    (kidsAt role faces).one? = some kid → kid.zero? = none

namespace Term

open TruthTests

variable {origin : Option NodeId} {face : Face} {kids results : Kids Term} {term zero : Term}

theorem zero?_compared (op : String) (left : Occupants Term) (right : Term)
    (position : Option Position) :
    (compared op left right position).face.zero? = none := rfl

theorem zero?_withKids : (withKids origin face kids results).face.zero? = face.zero? ∨
    (withKids origin face kids results).face.zero? = none := by
  unfold withKids
  split
  · exact Or.inr rfl
  · exact Or.inl rfl

theorem zero?_tested_true (term : Term) : (term.tested true).face.zero? = none := by
  obtain ⟨origin, face, kids⟩ := term
  rw [tested_node, inPlace]
  split
  · exact zero?_compared _ _ _ _
  · rename_i hzero
    rcases zero?_withKids with hsame | hnone
    · rw [hsame]
      simpa using hzero
    · exact hnone

theorem zero?_tested_of_none (h : term.face.zero? = none) (expected : Bool) :
    (term.tested expected).face.zero? = none := by
  cases expected with
  | true => exact zero?_tested_true term
  | false =>
    obtain ⟨origin, face, kids⟩ := term
    rw [tested_node, inPlace_false]
    rcases zero?_withKids with hsame | hnone
    · exact hsame.trans h
    · exact hnone

theorem exists_of_negated? (h : negated? face kids = some zero) :
    face.shape.isNegation = true ∧ ∃ operand, kidsAt .operand kids = .one operand ∧
      operand.face.zero? = some zero := by
  unfold negated? at h
  split at h
  · rename_i hnegation
    obtain ⟨operand, honly, hzero⟩ := Option.bind_eq_some_iff.mp h
    refine ⟨hnegation, operand, ?_, hzero⟩
    cases hkid : kidsAt .operand kids <;> simp_all [Occupants.one?]
  · exact absurd h (by simp)

theorem Inert.settled (h : Inert term) : term.Throughout Settled := by
  induction term with
  | node origin face kids ih =>
    obtain ⟨hkind, hkids⟩ := inert_node_iff.mp h
    refine throughout_node_iff.mpr ⟨fun role kid hexpected => ?_, fun kid hkid =>
      ih kid hkid (hkids kid hkid)⟩
    simp [testsIn_of_inert hkind, isNegation_of_inert hkind] at hexpected

theorem settled_compared {op : String} (hop : (op == "and" || op == "or") = false)
    {left : Occupants Term} (hzero : zero.Inert) {position : Option Position}
    (hleft : ∀ kid ∈ left.toList, kid.Throughout Settled) :
    (compared op left zero position).Throughout Settled := by
  refine throughout_node_iff.mpr ⟨fun role kid hexpected => ?_, ?_⟩
  · have hamong : Name.isAmong (op : Name) ["and", "or"] = false := by
      simpa [Name.isAmong] using hop
    simp [Shape.testsIn, Shape.isNegation, hamong] at hexpected
  · simpa [allKids_cons, allKids_nil, Occupants.toList, or_imp, forall_and] using ⟨hleft,
      hzero.settled⟩

theorem mem_atRoles {α β : Type} {f : Role → α → β} {kids : Kids α} {b : β}
    (h : b ∈ allKids (atRoles f kids)) :
    ∃ a ∈ allKids kids, ∃ role, b = f role a := by
  obtain ⟨entry, hentry, hb⟩ := List.mem_flatMap.mp h
  obtain ⟨old, hold, rfl⟩ := List.mem_map.mp hentry
  rw [Occupants.toList_map] at hb
  obtain ⟨a, ha, rfl⟩ := List.mem_map.mp hb
  exact ⟨a, List.mem_flatMap.mpr ⟨old, hold, ha⟩, old.1, rfl⟩

theorem settled_tested (term : Term) (expected : Bool) :
    (term.tested expected).Throughout Settled := by
  induction term generalizing expected with
  | node origin face kids ih =>
    have hkids :
        ∀ kid ∈ allKids (atRoles (fun role term => tested term (face.shape.testsIn role)) kids),
        kid.Throughout Settled := by
      intro kid hkid
      obtain ⟨old, hold, role, rfl⟩ := mem_atRoles hkid
      exact ih old hold _
    have hresult : (withKids origin face kids
        (atRoles (fun role term => tested term (face.shape.testsIn role)) kids)).Throughout
          Settled := by
      unfold withKids
      split
      · rename_i zero hzero
        obtain ⟨_, operand, _, hoperand⟩ := exists_of_negated? hzero
        refine settled_compared (by decide) (Face.zero?_inert hoperand) ?_
        exact fun kid hkid => hkids kid ((kidsAt_sublist_allKids _ _).subset hkid)
      · rename_i hnegated
        refine throughout_node_iff.mpr ⟨fun role kid hexpected hkid => ?_, hkids⟩
        simp only [kidsAt_mapKids, kidsAt_atRoles, Occupants.one?_map, Option.map_map,
          Option.map_eq_some_iff] at hkid
        obtain ⟨old, hold, rfl⟩ := hkid
        rcases hexpected with htests | ⟨hnegation, rfl⟩
        · rw [Function.comp, htests]
          exact zero?_tested_true old
        · have hnone : old.face.zero? = none := by simpa [negated?, hnegation, hold] using hnegated
          exact zero?_tested_of_none hnone _
    rw [tested_node, inPlace]
    split
    · rename_i zero hzero
      have hinert : zero.Inert := by
        cases expected with
        | false => exact absurd hzero (by simp)
        | true => exact Face.zero?_inert (by simpa using hzero)
      exact settled_compared (by decide) hinert (by simpa [Occupants.toList] using hresult)
    · exact hresult

end Term

/-! ## A second run -/

namespace TruthTests

variable {s : Session} {t : Tree} {id : NodeId} {role : Role} {visit : NodeId → Pass Unit}

/-- There are truth values where they are expected, as a visit can tell. -/
def Calm (face : Face) (faces : Kids Face) : Prop :=
  Typed face faces ∧ Settled face faces

theorem Calm.truth (h : Calm (t.node id).face (t.kidFaces id))
    (hrole : (t.shape id).testsIn role = true ∨ (t.shape id).isNegation = true ∧ role = .operand) :
    ∃ c type, t.only? id role = some c ∧ (t.node c).type? = some type ∧ zeroOf? type = none := by
  obtain ⟨type, htype⟩ := Option.isSome_iff_exists.mp (h.1.typed role hrole)
  rw [typeIn?_kidFaces] at htype
  obtain ⟨c, honly, htype⟩ := Option.bind_eq_some_iff.mp htype
  have hzero := h.2 role (t.node c).face hrole (by rw [one?_kidFaces, honly]; rfl)
  rw [Face.zero?, Node.type?_face, htype, Option.bind_some, Option.map_eq_none_iff] at hzero
  exact ⟨c, type, honly, htype, hzero⟩

theorem Calm.promote (h : Calm (t.node id).face (t.kidFaces id))
    (hrole : (t.shape id).testsIn role = true) {next : Pass Unit} (hnext : Quiet next t) :
    Quiet (do promote (← Pass.child id role); next) t := by
  obtain ⟨c, type, honly, htype, hzero⟩ := h.truth (.inl hrole)
  have hquiet : Quiet (TruthTests.promote c) t := by
    refine Answers.bind (Answers.typeAt htype) ?_
    rw [hzero]
    exact Answers.pure ()
  exact Answers.bind (Answers.child honly) (Answers.bind hquiet hnext)

theorem rule_quiet (h : Calm (t.node id).face (t.kidFaces id))
    (hdescend : Quiet (descend visit id) t) :
    Quiet (rule visit id) t := by
  refine Answers.read ?_
  split
  · rename_i hshape
    exact h.promote (by simp [hshape, Shape.testsIn]) hdescend
  · rename_i hshape
    exact h.promote (by simp [hshape, Shape.testsIn]) hdescend
  · rename_i hshape
    exact h.promote (by simp [hshape, Shape.testsIn]) hdescend
  · rename_i hshape
    obtain ⟨logical, hlogical⟩ := h.1.logical _ _ hshape
    have hamong := Name.isAmong_of_isIn hlogical
    refine Answers.bind (Answers.ofExcept hlogical) ?_
    split
    · rename_i htrue
      exact h.promote (by simp [hshape, Shape.testsIn, hamong, htrue])
        (h.promote (by simp [hshape, Shape.testsIn, hamong, htrue]) hdescend)
    · exact hdescend
  · rename_i hshape
    split
    · rename_i hnot
      obtain ⟨operand, type, honly, htype, hzero⟩ :=
        h.truth (.inr ⟨by simp [hshape, Shape.isNegation, hnot], rfl⟩)
      refine Answers.read
        (Answers.bind (Answers.child honly) (Answers.bind (Answers.typeAt htype) ?_))
      rw [hzero]
      exact hdescend
    · exact hdescend
  · exact hdescend

theorem everywhere_settles (hsound : s.tree.Sound) : Settling (everywhere rule) s := by
  refine everywhere_calms Tests rule_becomes ?_ (fun _ _ _ hcalm hvisit =>
    rule_quiet hcalm (quiet_descend hvisit)) (fun _ => False.elim) hsound
  rintro old _ ⟨rfl, htyped⟩ other hother
  exact ⟨htyped other hother, Term.settled_tested old false other hother⟩

end TruthTests

end UnitySharp
