import UnitySharp.Proofs.Tree.Treelike

/-!
# Well linked trees

A tree is well linked if the check of its links succeeds, the root leads to slots only, and every
node is reached from the root in one way.  This is so exactly if its root is intact and has no
parent (`wellLinked_iff`).
-/

namespace UnitySharp.Tree

open List

variable {t : Tree} {a b c id top : NodeId} {way : List Nat} {place depth steps : Nat}

/-- The node that is reached from a node by going to the children at some places, one after the
other. -/
def follow (t : Tree) : NodeId → List Nat → Option NodeId
  | id, [] => some id
  | id, place :: rest => (t.children id)[place]?.bind fun child => t.follow child rest

/-- A node is part of the tree proper. -/
def Reachable (t : Tree) (a : NodeId) : Prop :=
  t.Beneath t.root a

/-- The links of the tree pass the check, and every node of it has a slot and is reached in one
way. -/
structure WellLinked (t : Tree) : Prop where
  slots : ∀ a, t.Reachable a → t.HasSlot a
  linked : t.isLinked = true
  once : ∀ a way other, t.follow t.root way = some a → t.follow t.root other = some a → way = other

/-! ## Ways -/

theorem follow_append (t : Tree) (id : NodeId) (way rest : List Nat) :
    t.follow id (way ++ rest) = (t.follow id way).bind fun mid => t.follow mid rest := by
  induction way generalizing id with
  | nil => rfl
  | cons place way ih =>
    simp only [cons_append, follow]
    cases (t.children id)[place]? with
    | none => rfl
    | some child => exact ih child

theorem follow_concat (hway : t.follow top way = some id)
    (hplace : (t.children id)[place]? = some c) :
    t.follow top (way ++ [place]) = some c := by
  simp [follow_append, hway, follow, hplace]

theorem beneath_of_follow (h : t.follow id way = some a) : t.Beneath id a := by
  induction way generalizing id with
  | nil =>
    cases h
    exact Beneath.refl
  | cons place way ih =>
    rw [follow, Option.bind_eq_some_iff] at h
    obtain ⟨child, hchild, hway⟩ := h
    exact (ih hway).below_child (mem_of_getElem? hchild)

theorem exists_follow_of_beneath (h : t.Beneath id a) : ∃ way, t.follow id way = some a := by
  induction h with
  | refl => exact ⟨[], rfl⟩
  | tail _ hlow ih =>
    obtain ⟨way, hway⟩ := ih
    obtain ⟨place, hplace⟩ := getElem?_of_mem hlow
    exact ⟨way ++ [place], follow_concat hway hplace⟩

theorem Treelike.place_eq {other : Nat} (h : t.Treelike id) (ha : (t.children id)[place]? = some a)
    (hb : (t.children id)[other]? = some b) (hac : t.Beneath a c) (hbc : t.Beneath b c) :
      place = other := by
  obtain ⟨hplace, rfl⟩ := List.getElem?_eq_some_iff.mp ha
  obtain ⟨hother, rfl⟩ := List.getElem?_eq_some_iff.mp hb
  have hapart := pairwise_iff_getElem.mp h.apart
  by_contra hne
  rcases Nat.lt_or_gt_of_ne hne with hlt | hlt
  · exact hapart place other hplace hother hlt c hac hbc
  · exact hapart other place hother hplace hlt c hbc hac

theorem Treelike.follow_inj {other : List Nat} (h : t.Treelike id) (hway : t.follow id way = some a)
    (hother : t.follow id other = some a) : way = other := by
  induction way generalizing id other with
  | nil =>
    cases hway
    cases other with
    | nil => rfl
    | cons place other =>
      rw [follow, Option.bind_eq_some_iff] at hother
      obtain ⟨child, hchild, hother⟩ := hother
      exact absurd (beneath_of_follow hother) (h.not_beneath_of_child (mem_of_getElem? hchild))
  | cons place way ih =>
    rw [follow, Option.bind_eq_some_iff] at hway
    obtain ⟨child, hchild, hway⟩ := hway
    cases other with
    | nil =>
      cases hother
      exact absurd (beneath_of_follow hway) (h.not_beneath_of_child (mem_of_getElem? hchild))
    | cons place' other =>
      rw [follow, Option.bind_eq_some_iff] at hother
      obtain ⟨child', hchild', hother⟩ := hother
      have hplace := h.place_eq hchild hchild' (beneath_of_follow hway) (beneath_of_follow hother)
      subst hplace
      obtain rfl : child = child' := Option.some.inj (hchild.symm.trans hchild')
      rw [ih (h.child (mem_of_getElem? hchild)) hway hother]

/-! ## The walk of the check -/

theorem Shallow.succ (h : t.Shallow depth id) : t.Shallow (depth + 1) id := by
  induction depth generalizing id with
  | zero => exact h.elim
  | succ depth ih => exact fun c hc => ih (h c hc)

theorem length_preorderWithin (t : Tree) (depth : Nat) (id : NodeId) :
    (t.preorderWithin depth id).length = t.weightWithin depth id := by
  induction depth generalizing id with
  | zero => rfl
  | succ depth ih =>
    rw [preorderWithin, weightWithin, length_cons]
    generalize t.children id = ids
    induction ids with
    | nil => rfl
    | cons c rest ihRest =>
      rw [foldr_cons, ← ihRest, ← ih c, flatMap_cons, length_append]
      omega

theorem preorderWithin_succ (h : t.Shallow depth id) :
    t.preorderWithin (depth + 1) id = t.preorderWithin depth id := by
  induction depth generalizing id with
  | zero => exact h.elim
  | succ depth ih =>
    rw [preorderWithin, preorderWithin]
    exact congrArg (id :: ·) (flatMap_congr fun c hc => ih (h c hc))

theorem walkStack_eq {n : Nat} {stack : List NodeId} (hshallow : ∀ top ∈ stack, t.Shallow n top)
    (hsteps : (stack.flatMap (t.preorderWithin n)).length ≤ steps) :
    t.walkStack steps stack = stack.flatMap (t.preorderWithin n) := by
  induction steps generalizing stack with
  | zero =>
    -- Every subtree has a node, so nothing is on the stack.
    cases stack with
    | nil => rfl
    | cons first rest =>
      cases n with
      | zero => exact (hshallow first mem_cons_self).elim
      | succ n => simp [preorderWithin] at hsteps
  | succ steps ih =>
    cases stack with
    | nil => rfl
    | cons first rest =>
      cases n with
      | zero => exact (hshallow first mem_cons_self).elim
      | succ n =>
        obtain ⟨hfirst, hrest⟩ := forall_mem_cons.mp hshallow
        have hsame : (t.children first ++ rest).flatMap (t.preorderWithin (n + 1)) =
            (t.children first).flatMap (t.preorderWithin n) ++
              rest.flatMap (t.preorderWithin (n + 1)) := by
          rw [flatMap_append, flatMap_congr fun c hc => preorderWithin_succ (hfirst c hc)]
        rw [flatMap_cons, preorderWithin, cons_append, ← hsame] at hsteps ⊢
        rw [walkStack, ih ?_ (Nat.le_of_succ_le_succ hsteps)]
        intro c hc
        exact (mem_append.mp hc).elim (fun hc => (hfirst c hc).succ) (hrest c)

theorem walk_eq_preorderWithin (h : t.Shallow (t.size + 1) id) :
    t.walk id = t.preorderWithin (t.size + 1) id := by
  rw [walk, walkStack_eq (n := t.size + 1) (by simpa using h)] <;> simp [length_preorderWithin]

/-- A walk goes to every node beneath its start that is not too deep for it. -/
theorem mem_walk_of_beneath (h : t.Shallow (t.size + 1) id) (hbelow : t.Beneath id a) :
    a ∈ t.walk id := by
  rw [walk_eq_preorderWithin h]
  generalize t.size + 1 = depth at h
  induction depth generalizing id with
  | zero => exact h.elim
  | succ depth ih =>
    rcases hbelow.eq_or_child with rfl | ⟨c, hc, hbelow⟩
    · exact mem_cons_self
    · exact mem_cons_of_mem _ (mem_flatMap.mpr ⟨c, hc, ih hbelow (h c hc)⟩)

namespace Intact

theorem walk_eq (h : t.Intact id) : t.walk id = id :: (t.children id).flatMap t.walk := by
  rw [walk_eq_preorderWithin h.shallow, preorderWithin]
  refine congrArg (id :: ·) (flatMap_congr fun c hc => ?_)
  rw [walk_eq_preorderWithin (h.child hc).shallow, preorderWithin_succ (h.shallow c hc)]

theorem walkStack_eq_walk (h : t.Intact id) (hsteps : (t.walk id).length ≤ steps) :
    t.walkStack steps [id] = t.walk id := by
  rw [walk_eq_preorderWithin h.shallow] at hsteps ⊢
  rw [walkStack_eq (n := t.size + 1) (by simpa using h.shallow) (by simpa using hsteps)]
  simp

theorem mem_walk_iff (h : t.Intact id) : a ∈ t.walk id ↔ t.Beneath id a :=
  ⟨beneath_of_mem_walk, mem_walk_of_beneath h.shallow⟩

theorem nodup_walk (h : t.Intact id) : (t.walk id).Nodup := by
  induction h with
  | @intro id hslot hnodup hheld hbelow ih =>
    have hintact : t.Intact id := .intro hslot hnodup hheld hbelow
    rw [hintact.walk_eq, nodup_cons, nodup_flatMap, mem_flatMap]
    refine ⟨?_, ih, hnodup.imp_of_mem ?_⟩
    · rintro ⟨c, hc, hcycle⟩
      exact hintact.not_beneath_of_child hc (beneath_of_mem_walk hcycle)
    · intro a b ha hb hne c hac hbc
      exact hintact.siblings_apart ha hb hne (beneath_of_mem_walk hac) (beneath_of_mem_walk hbc)

end Intact

/-! ## Well linked trees are intact -/

namespace WellLinked

theorem shallow_below (h : t.WellLinked) {path : List NodeId} (hway : t.follow t.root way = some id)
    (hnodup : path.Nodup) (hslots : ∀ a ∈ path, t.HasSlot a)
    (habove : ∀ a ∈ path, ∃ before, t.follow t.root before = some a ∧ before.length < way.length)
    (depth : Nat) (hdepth : t.size < path.length + depth) : t.Shallow depth id := by
  induction depth generalizing path id way with
  | zero => exact absurd (length_le_size hnodup hslots) (by omega)
  | succ depth ih =>
    intro c hc
    obtain ⟨place, hplace⟩ := getElem?_of_mem hc
    have hself : id ∉ path := by
      intro hmem
      obtain ⟨before, hbefore, hlength⟩ := habove id hmem
      rw [h.once id before way hbefore hway] at hlength
      exact Nat.lt_irrefl _ hlength
    have hpath : (id :: path).Nodup := nodup_cons.mpr ⟨hself, hnodup⟩
    refine ih (follow_concat hway hplace) hpath ?_ ?_ ?_
    · intro a ha
      rcases mem_cons.mp ha with rfl | ha
      · exact h.slots a (beneath_of_follow hway)
      · exact hslots a ha
    · intro a ha
      rw [length_append, length_singleton]
      rcases mem_cons.mp ha with rfl | ha
      · exact ⟨way, hway, Nat.lt_succ_self _⟩
      · obtain ⟨before, hbefore, hlength⟩ := habove a ha
        exact ⟨before, hbefore, Nat.lt_succ_of_lt hlength⟩
    · rw [length_cons]
      omega

theorem shallow (h : t.WellLinked) : t.Shallow (t.size + 1) t.root := by
  have hself : t.follow t.root [] = some t.root := rfl
  exact h.shallow_below hself nodup_nil (by simp) (by simp) _ (by simp)

theorem parent_child (h : t.WellLinked) (hid : t.Reachable id) (hc : c ∈ t.children id) :
    t.parent c = some id := by
  have hlinked := h.linked
  simp only [isLinked, Bool.and_eq_true, all_eq_true, beq_iff_eq] at hlinked
  exact (hlinked.1 id (mem_walk_of_beneath h.shallow hid)).2 c hc

theorem intact_of_shallow (h : t.WellLinked) (hshallow : t.Shallow depth id)
    (hid : t.Reachable id) : t.Intact id := by
  induction depth generalizing id with
  | zero => exact hshallow.elim
  | succ depth ih =>
    refine .intro (h.slots id hid) ?_ (fun c hc => h.parent_child hid hc)
      fun c hc => ih (hshallow c hc) (hid.tail hc)
    obtain ⟨way, hway⟩ := exists_follow_of_beneath hid
    rw [nodup_iff_getElem?_ne_getElem?]
    intro i j hij hj heq
    obtain ⟨c, hc⟩ : ∃ c, (t.children id)[j]? = some c := ⟨_, getElem?_eq_getElem hj⟩
    have hsame := h.once c _ _ (follow_concat hway (heq.trans hc)) (follow_concat hway hc)
    have hplace : i = j := by simpa using hsame
    omega

theorem intact (h : t.WellLinked) : t.Intact t.root :=
  h.intact_of_shallow h.shallow Beneath.refl

theorem parent_root (h : t.WellLinked) : t.parent t.root = none := by
  have hlinked := h.linked
  simp only [isLinked, Bool.and_eq_true, Option.isNone_iff_eq_none] at hlinked
  exact hlinked.2

end WellLinked

theorem Intact.isLinked (h : t.Intact t.root) (htop : t.parent t.root = none) :
    t.isLinked = true := by
  simp only [Tree.isLinked, Bool.and_eq_true, all_eq_true, beq_iff_eq, Option.isNone_iff_eq_none]
  refine ⟨fun id hid => ?_, htop⟩
  have hintact := h.beneath (beneath_of_mem_walk hid)
  refine ⟨?_, fun c hc => hintact.parent_child hc⟩
  obtain ⟨n, rfl, _⟩ := hintact.hasSlot.exists_eq
  rfl

/-- A tree is well linked if everything beneath its root is intact and nothing is above it. -/
theorem wellLinked_iff : t.WellLinked ↔ t.Intact t.root ∧ t.parent t.root = none where
  mp := fun h => ⟨h.intact, h.parent_root⟩
  mpr := fun ⟨hintact, htop⟩ =>
    { slots := fun _ ha => (hintact.beneath ha).hasSlot
      linked := hintact.isLinked htop
      once := fun _ _ _ hway hother => hintact.treelike.follow_inj hway hother }

end UnitySharp.Tree
