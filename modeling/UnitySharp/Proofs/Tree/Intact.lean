import UnitySharp.Proofs.Tree.Store
import Mathlib.Data.List.Perm.Subperm

/-!
# Intact subtrees

A node is intact if it has a slot, its children are distinct, each child names it as its parent, and
the children are intact themselves.  So there are no cycles and no sharing.  Nothing is asked of
nodes that have been cut out.
-/

namespace UnitySharp.Tree

open List

/-- One node stands beneath another: it is reached by going from node to children. -/
abbrev Beneath (t : Tree) : NodeId → NodeId → Prop :=
  Relation.ReflTransGen fun id child => child ∈ t.children id

/-- One node stands beneath another and is not that node. -/
def Within (t : Tree) (top id : NodeId) : Prop :=
  t.Beneath top id ∧ id ≠ top

/-- The subtree of a node is a tree of slots whose links agree in both directions. -/
inductive Intact (t : Tree) : NodeId → Prop where
  | intro {id : NodeId} (hasSlot : t.HasSlot id) (nodup : (t.children id).Nodup)
      (held : ∀ child ∈ t.children id, t.parent child = some id)
      (below : ∀ child ∈ t.children id, Intact t child) : Intact t id

variable {s t : Tree} {a b c id top : NodeId}

theorem Beneath.refl : t.Beneath id id :=
  Relation.ReflTransGen.refl

theorem Beneath.of_child (h : c ∈ t.children id) : t.Beneath id c :=
  Relation.ReflTransGen.single h

theorem Beneath.eq_or_child (h : t.Beneath top id) :
    id = top ∨ ∃ child ∈ t.children top, t.Beneath child id := by
  rcases Relation.ReflTransGen.cases_head h with heq | ⟨child, hchild, hbelow⟩
  · exact Or.inl heq.symm
  · exact Or.inr ⟨child, hchild, hbelow⟩

theorem Beneath.eq_or_holder (h : t.Beneath top id) :
    id = top ∨ ∃ holder, t.Beneath top holder ∧ id ∈ t.children holder := by
  rcases Relation.ReflTransGen.cases_tail h with heq | ⟨holder, hholder, hchild⟩
  · exact Or.inl heq
  · exact Or.inr ⟨holder, hholder, hchild⟩

theorem Beneath.below_child (hchild : c ∈ t.children top) (h : t.Beneath c id) : t.Beneath top id :=
  Relation.ReflTransGen.head hchild h

namespace Intact

theorem hasSlot (h : t.Intact id) : t.HasSlot id := by
  cases h with
  | intro hslot _ _ _ => exact hslot

theorem has (h : t.Intact id) : t.Has id :=
  h.hasSlot.has

theorem nodup (h : t.Intact id) : (t.children id).Nodup := by
  cases h with
  | intro _ hnodup _ _ => exact hnodup

/-- In an intact subtree, parents and children agree. -/
theorem parent_child (h : t.Intact id) (hchild : c ∈ t.children id) : t.parent c = some id := by
  cases h with
  | intro _ _ hheld _ => exact hheld c hchild

theorem child (h : t.Intact id) (hchild : c ∈ t.children id) : t.Intact c := by
  cases h with
  | intro _ _ _ hbelow => exact hbelow c hchild

theorem beneath (h : t.Intact top) (hbelow : t.Beneath top id) : t.Intact id := by
  induction hbelow with
  | refl => exact h
  | tail _ hchild ih => exact ih.child hchild

theorem holder (h : t.Intact top) (hbelow : t.Within top id) :
    ∃ up, t.parent id = some up ∧ t.Beneath top up ∧ id ∈ t.children up := by
  rcases hbelow.1.eq_or_holder with heq | ⟨up, hup, hchild⟩
  · exact absurd heq hbelow.2
  · exact ⟨up, (h.beneath hup).parent_child hchild, hup, hchild⟩

theorem not_own_child (h : t.Intact id) : id ∉ t.children id := by
  induction h with
  | intro _ _ _ _ ih =>
    intro hself
    exact ih _ hself hself

theorem beneath_antisymm (h : t.Intact a) (hab : t.Beneath a b) (hba : t.Beneath b a) : a = b := by
  induction h generalizing b with
  | @intro id _ _ _ _ ih =>
    rcases hab.eq_or_child with heq | ⟨child, hchild, hbelow⟩
    · exact heq.symm
    · -- The child lies on a cycle through `id`, so the induction hypothesis makes it `id` itself.
      have hcycle : child = id :=
        ih child hchild (hbelow.trans hba) (Beneath.of_child hchild)
      subst hcycle
      exact ih child hchild hab hba

/-- There are no cycles in an intact subtree. -/
theorem not_beneath_of_child (h : t.Intact id) (hchild : c ∈ t.children id) : ¬t.Beneath c id := by
  intro hcycle
  have heq : id = c := h.beneath_antisymm (Beneath.of_child hchild) hcycle
  subst heq
  exact h.not_own_child hchild

theorem within_of_child (h : t.Intact id) (hchild : c ∈ t.children id) (hbelow : t.Beneath c a) :
    t.Within id a := by
  refine ⟨hbelow.below_child hchild, ?_⟩
  intro heq
  subst heq
  exact h.not_beneath_of_child hchild hbelow

theorem comparable (ha : t.Intact a) (hb : t.Intact b) (hac : t.Beneath a c) (hbc : t.Beneath b c) :
    t.Beneath a b ∨ t.Beneath b a := by
  induction hac with
  | refl => exact Or.inr hbc
  | @tail up low hup hlow ih =>
    rcases hbc.eq_or_holder with heq | ⟨other, hother, hheld⟩
    · subst heq
      exact Or.inl (hup.tail hlow)
    · have hparents : some up = some other := by
        rw [← (ha.beneath hup).parent_child hlow, (hb.beneath hother).parent_child hheld]
      have hsame : up = other := Option.some.inj hparents
      subst hsame
      exact ih hother

/-- Only the top of an intact subtree can be without a parent. -/
theorem eq_of_parent_none (hb : t.Intact b) (hba : t.Beneath b a) (hparent : t.parent a = none) :
    a = b := by
  by_contra hne
  obtain ⟨up, hup, _⟩ := hb.holder ⟨hba, hne⟩
  rw [hparent] at hup
  exact absurd hup (by simp)

theorem beneath_holder_of_child (hb : t.Intact b) (hid : t.Intact id) (hchild : c ∈ t.children id)
    (hbc : t.Beneath b c) (hne : c ≠ b) : t.Beneath b id := by
  obtain ⟨up, hup, habove, _⟩ := hb.holder ⟨hbc, hne⟩
  rw [hid.parent_child hchild] at hup
  have hsame : id = up := Option.some.inj hup
  subst hsame
  exact habove

/-- The subtrees of two children have no node in common. -/
theorem siblings_apart (h : t.Intact id) (ha : a ∈ t.children id) (hb : b ∈ t.children id)
    (hne : a ≠ b) (hac : t.Beneath a c) : ¬t.Beneath b c := by
  intro hbc
  rcases comparable (h.child ha) (h.child hb) hac hbc with hab | hba
  · exact h.not_beneath_of_child ha
      (beneath_holder_of_child (h.child ha) h hb hab hne.symm)
  · exact h.not_beneath_of_child hb
      (beneath_holder_of_child (h.child hb) h ha hba hne)

end Intact

/-! ## Trees that agree on a subtree -/

theorem Beneath.transfer (hchildren : ∀ b, s.Beneath a b → t.children b = s.children b)
    (h : s.Beneath a c) :
    t.Beneath a c := by
  induction h with
  | refl => exact Beneath.refl
  | @tail up low hup hlow ih =>
    refine ih.tail ?_
    rw [hchildren up hup]
    exact hlow

theorem Beneath.of_transfer (hchildren : ∀ b, s.Beneath a b → t.children b = s.children b)
    (h : t.Beneath a c) :
    s.Beneath a c := by
  induction h with
  | refl => exact Beneath.refl
  | @tail up low hup hlow ih =>
    refine ih.tail ?_
    rw [← hchildren up ih]
    exact hlow

theorem Intact.transfer (h : s.Intact id) (hslots : ∀ a, s.HasSlot a → t.HasSlot a)
    (hchildren : ∀ a, s.Beneath id a → t.children a = s.children a)
    (hparent : ∀ a, s.Within id a → t.parent a = s.parent a) : t.Intact id := by
  induction h with
  | @intro id hslot hnodup hheld hbelow ih =>
    have hintact : s.Intact id := .intro hslot hnodup hheld hbelow
    have hsame : t.children id = s.children id := hchildren id Beneath.refl
    refine .intro (hslots id hslot) (by rw [hsame]; exact hnodup) ?_ ?_
    · intro child hchild
      rw [hsame] at hchild
      rw [hparent child (hintact.within_of_child hchild Beneath.refl)]
      exact hheld child hchild
    · intro child hchild
      rw [hsame] at hchild
      apply ih child hchild
      · intro a ha
        exact hchildren a (ha.below_child hchild)
      · intro a ha
        exact hparent a (hintact.within_of_child hchild ha.1)

theorem Intact.of_same_nodes (h : s.Intact id) (hslots : ∀ a, s.HasSlot a → t.HasSlot a)
    (hsame : ∀ a, s.Beneath id a → t.node a = s.node a) : t.Intact id :=
  h.transfer hslots (fun a ha => by simp only [children, hsame a ha])
    fun a ha => by simp only [parent, hsame a ha.1]

theorem beneath_iff_of_same_nodes (hsame : ∀ a, s.Beneath id a → t.node a = s.node a) :
    t.Beneath id c ↔ s.Beneath id c := by
  have hchildren : ∀ a, s.Beneath id a → t.children a = s.children a := fun a ha => by
    simp only [children, hsame a ha]
  exact ⟨fun h => h.of_transfer hchildren, fun h => h.transfer hchildren⟩

/-! ## Walks -/

theorem mem_walkStack {steps : Nat} {stack : List NodeId} (h : a ∈ t.walkStack steps stack) :
    ∃ top ∈ stack, t.Beneath top a := by
  induction steps generalizing stack with
  | zero => cases stack <;> simp [walkStack] at h
  | succ steps ih =>
    cases stack with
    | nil => simp [walkStack] at h
    | cons top rest =>
      rw [walkStack, mem_cons] at h
      rcases h with rfl | h
      · exact ⟨a, mem_cons_self, Beneath.refl⟩
      · obtain ⟨found, hfound, hbelow⟩ := ih h
        rcases mem_append.mp hfound with hchild | hrest
        · exact ⟨top, mem_cons_self, hbelow.below_child hchild⟩
        · exact ⟨found, mem_cons_of_mem top hrest, hbelow⟩

/-- A walk goes to nodes beneath its start only. -/
theorem beneath_of_mem_walk (h : a ∈ t.walk id) : t.Beneath id a := by
  obtain ⟨top, htop, hbelow⟩ := mem_walkStack h
  rwa [mem_singleton.mp htop] at hbelow

/-! ## Depth -/

theorem length_le_size {ids : List NodeId} (hnodup : ids.Nodup) (hslots : ∀ a ∈ ids, t.HasSlot a) :
    ids.length ≤ t.size := by
  have hsub : ids ⊆ (List.range t.size).map NodeId.slot := by
    intro a ha
    obtain ⟨n, rfl, hn⟩ := (hslots a ha).exists_eq
    exact mem_map.mpr ⟨n, mem_range.mpr hn, rfl⟩
  simpa using (subperm_of_subset hnodup hsub).length_le

def Shallow (t : Tree) : Nat → NodeId → Prop
  | 0, _ => False
  | depth + 1, id => ∀ c ∈ t.children id, t.Shallow depth c

end UnitySharp.Tree
