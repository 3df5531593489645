import UnitySharp.Proofs.Tree.Treelike

/-!
# Loose ends

A case of a switch that stays an `if` may carry a loose `break` at the end of its branch, which gets
its slot when the case is planted.
-/

namespace UnitySharp.Tree

open List

variable {t : Tree} {a b c id top branch : NodeId} {kept : List NodeId} {n : Nat}

/-- A subtree that would be intact without a loose leaf at the end of the statements of a branch. -/
structure Fringed (t : Tree) (top branch : NodeId) (kept : List NodeId) (n : Nat) : Prop where
  healed : (t.setRole branch .statements (.many kept)).Intact top
  statements_eq : (t.node branch).kid .statements = .many (kept ++ [.loose n])
  has : n < t.loose.size
  leaf : (t.node (.loose n)).kids = []
  kind_leaf : t.kind (.loose n) = .breakStatement

namespace Fringed

variable (h : t.Fringed top branch kept n)

include h

theorem role_mem : (t.node branch).kids.any (fun entry => entry.1 == Role.statements) = true := by
  have hmany : kidsAt .statements (t.node branch).kids = .many (kept ++ [.loose n]) :=
    h.statements_eq
  apply any_role_of_kidsAt_ne_empty (NodeId.loose n)
  rw [hmany]
  simp [Occupants.toList]

theorem has_branch : t.Has branch := by
  by_contra hbranch
  have hkids : (t.node branch).kids = [] := by rw [node_of_not_has hbranch]; rfl
  simpa [hkids] using h.role_mem

theorem children_branch : ∃ before after, t.children branch = before ++ (kept ++ [.loose n]) ++
    after ∧ (t.setRole branch .statements (.many kept)).children branch = before ++ kept ++
    after := by
  obtain ⟨before, after, hsplit, hset⟩ := exists_split_at_role h.role_mem
  have hmany : kidsAt .statements (t.node branch).kids = .many (kept ++ [.loose n]) :=
    h.statements_eq
  rw [hmany] at hsplit
  refine ⟨before, after, hsplit, ?_⟩
  rw [children_setRole_self h.has_branch, hset]
  rfl

theorem eq_of_beneath_leaf (hbelow : t.Beneath (.loose n) a) : a = .loose n := by
  rcases hbelow.eq_or_child with heq | ⟨c, hc, _⟩
  · exact heq
  · simp [children, Node.children, h.leaf, allKids] at hc

theorem beneath_healed (hbelow : t.Beneath c a) :
    (t.setRole branch .statements (.many kept)).Beneath c a ∨
      (a = .loose n ∧ (t.setRole branch .statements (.many kept)).Beneath c branch) := by
  induction hbelow with
  | refl => exact Or.inl Beneath.refl
  | @tail up low _ hlow ih =>
    rcases ih with hup | ⟨hleaf, _⟩
    · by_cases heq : up = branch
      · subst heq
        obtain ⟨before, after, hchildren, hhealed⟩ := h.children_branch
        rw [hchildren] at hlow
        by_cases hleaf : low = .loose n
        · exact Or.inr ⟨hleaf, hup⟩
        · refine Or.inl (hup.tail ?_)
          rw [hhealed]
          simp only [mem_append, mem_singleton] at hlow ⊢
          tauto
      · refine Or.inl (hup.tail ?_)
        rw [children_setRole_ne t heq]
        exact hlow
    · subst hleaf
      simp [children, Node.children, h.leaf, allKids] at hlow

theorem apart_of_healed (ha : (t.setRole branch .statements (.many kept)).Intact a)
    (hb : (t.setRole branch .statements (.many kept)).Intact b)
    (hapart : (t.setRole branch .statements (.many kept)).Apart a b) : t.Apart a b := by
  intro x hax hbx
  rcases h.beneath_healed hax with hax | ⟨rfl, haBranch⟩
  · rcases h.beneath_healed hbx with hbx | ⟨rfl, _⟩
    · exact hapart x hax hbx
    · exact (ha.beneath hax).hasSlot
  · rcases h.beneath_healed hbx with hbx | ⟨_, hbBranch⟩
    · exact (hb.beneath hbx).hasSlot
    · exact hapart branch haBranch hbBranch

theorem treelike_leaf : t.Treelike (.loose n) := by
  have hnone : t.children (.loose n) = [] := by simp [children, Node.children, h.leaf, allKids]
  refine .intro h.has ?_ ?_
  · rw [hnone]
    exact List.Pairwise.nil
  · simp [hnone]

theorem treelike_of_healed (hid : (t.setRole branch .statements (.many kept)).Intact id) :
    t.Treelike id := by
  induction hid with
  | @intro id hslot hnodup hheld hbelow ih =>
    have hintact : (t.setRole branch .statements (.many kept)).Intact id :=
      .intro hslot hnodup hheld hbelow
    have hapart : ((t.setRole branch .statements (.many kept)).children id).Pairwise t.Apart := by
      refine hintact.treelike.apart.imp_of_mem ?_
      intro a b ha hb hab
      exact h.apart_of_healed (hintact.child ha) (hintact.child hb) hab
    refine .intro (by simpa using hslot.has) ?_ ?_
    · by_cases heq : id = branch
      · subst heq
        obtain ⟨before, after, hchildren, hhealed⟩ := h.children_branch
        -- The leaf is apart from the other children, since these do not lead back to the branch.
        have hleaf : ∀ c ∈ before ++ kept ++ after, t.Apart (.loose n) c := by
          intro c hc x hleaf hcx
          rw [← hhealed] at hc
          rw [h.eq_of_beneath_leaf hleaf] at hcx
          rcases h.beneath_healed hcx with hcx | ⟨_, hcycle⟩
          · exact ((hintact.child hc).beneath hcx).hasSlot
          · exact hintact.not_beneath_of_child hc hcycle
        rw [hhealed] at hapart
        have hperm : (before ++ (kept ++ [NodeId.loose n]) ++ after).Perm
            (.loose n :: (before ++ kept ++ after)) := by
          rw [← append_assoc before kept, append_assoc (before ++ kept)]
          exact perm_middle
        rw [hchildren, hperm.pairwise_iff fun hab c hbc hac => hab c hac hbc]
        exact pairwise_cons.mpr ⟨hleaf, hapart⟩
      · rw [children_setRole_ne t heq] at hapart
        exact hapart
    · intro c hc
      by_cases heq : id = branch
      · subst heq
        obtain ⟨before, after, hchildren, hhealed⟩ := h.children_branch
        rw [hchildren] at hc
        by_cases hleaf : c = .loose n
        · rw [hleaf]
          exact h.treelike_leaf
        · apply ih c
          rw [hhealed]
          simp only [mem_append, mem_singleton] at hc ⊢
          tauto
      · apply ih c
        rw [children_setRole_ne t heq]
        exact hc

theorem ready : (Part.whole top).Ready t := by
  refine ⟨h.treelike_of_healed h.healed, ?_⟩
  intro a ha hloose
  rcases h.beneath_healed ha with hhealed | ⟨rfl, _⟩
  · exact absurd (h.healed.beneath hhealed).hasSlot (by simpa using hloose)
  · have hkind : (t.node (.loose n)).shape.kind = .breakStatement := h.kind_leaf
    simp only [Laid, roles, kind, shape, h.leaf, hkind]
    rfl

end Fringed

end UnitySharp.Tree
