import UnitySharp.Proofs.Tree.Edited

/-!
# Pruned trees

Any number of removals is described by the set of nodes that are gone from wherever they stood.
-/

namespace UnitySharp.Tree

open List

variable {s t u t' : Tree} {drop also : NodeId → Bool} {a c id : NodeId} {role : Role}

/-- From one tree to the next, the nodes of a set have been taken out of their parents.  What a role
holds alone it has held alone before.  Lists and parents are spoken of where nodes stand. -/
structure Pruned (drop : NodeId → Bool) (s t : Tree) : Prop where
  undisturbed : ∀ D, Spared D s t
  has : ∀ a, t.Has a → s.Has a
  shape_eq : ∀ a, t.shape a = s.shape a
  only? : ∀ a role c, t.only? a role = some c → s.only? a role = some c
  listed : ∀ a, s.Standing a → ∀ role, t.listed a role = (s.listed a role).filter fun c => !drop c
  gone : ∀ c, s.Standing c → drop c = true → s.parent c ≠ none ∧ t.parent c = none

namespace Pruned

theorem of_same_nodes (hundisturbed : ∀ D, Spared D s t) (hhas : ∀ a, t.Has a → s.Has a)
    (hnode : ∀ a, t.node a = s.node a) : Pruned (fun _ => false) s t where
  undisturbed := hundisturbed
  has := hhas
  shape_eq := fun a => congrArg Node.shape (hnode a)
  only? := fun a role c honly => by rwa [Tree.only?, hnode] at honly
  listed := fun a _ role => by simp [Tree.listed, hnode]
  gone := fun c _ hdrop => by cases hdrop

theorem standing (h : Pruned drop s t) (ha : s.Standing a) : t.Standing a :=
  (h.undisturbed fun _ => False).standing a ha id

theorem trans (hst : Pruned drop s t) (htu : Pruned also t u) :
    Pruned (fun c => drop c || also c) s u where
  undisturbed := fun D => (hst.undisturbed D).trans (htu.undisturbed D) fun _ _ hD => hD
  has := fun a ha => hst.has a (htu.has a ha)
  shape_eq := fun a => (htu.shape_eq a).trans (hst.shape_eq a)
  only? := fun a role c honly => hst.only? a role c (htu.only? a role c honly)
  listed := by
    intro a ha role
    rw [htu.listed a (hst.standing ha), hst.listed a ha, filter_filter]
    exact filter_congr fun c _ => by rw [Bool.not_or, Bool.and_comm]
  gone := by
    intro c hc hdrop
    rcases Bool.or_eq_true_iff.mp hdrop with hdrop | halso
    · obtain ⟨hheld, hnone⟩ := hst.gone c hc hdrop
      exact ⟨hheld, (htu.undisturbed fun _ => False).top c (hst.standing hc) id hnone⟩
    · obtain ⟨hheld, hnone⟩ := htu.gone c (hst.standing hc) halso
      exact ⟨fun hbefore => hheld ((hst.undisturbed fun _ => False).top c hc id hbefore), hnone⟩

theorem kept_of_beneath {top : NodeId} (h : Pruned drop s t) (htop : s.Standing top)
    (hkept : drop top = false ∨ s.parent top = none) (hbelow : t.Beneath top c) :
      drop c = false := by
  by_contra hdrop
  rw [Bool.not_eq_false] at hdrop
  have hc := (h.standing htop).beneath hbelow
  have hback : s.Beneath top c :=
    ((h.undisturbed fun _ => False).beneath top c htop id hbelow (h.has c hc.has)).elim id
      False.elim
  obtain ⟨hheld, hnone⟩ := h.gone c (htop.beneath hback) hdrop
  have heq := (h.standing htop).intact.eq_of_parent_none hbelow hnone
  subst heq
  rcases hkept with hkept | hkept
  · rw [hkept] at hdrop
    cases hdrop
  · exact hheld hkept

end Pruned

theorem only?_remove (h : t.remove id = .ok t') (honly : t'.only? a role = some c) :
    t.only? a role = some c := by
  have hback : ∀ p r (occupants : Occupants NodeId), occupants.one? = none →
      ((t.setRole p r occupants).detach id).only? a role = some c → t.only? a role = some c := by
    intro p r occupants hnone hsome
    rw [only?, Node.kid, detach, kids_node_setParent] at hsome
    by_cases heq : a = p
    · by_cases hhas : t.Has p
      · rw [heq, setRole, node_update_self hhas] at hsome
        rw [heq, only?, Node.kid]
        by_cases hrole : role = r
        · by_cases hany : (t.node p).kids.any (fun entry => entry.1 == r) = true
          · rw [hrole, kidsAt_setKids_self hany, hnone] at hsome
            cases hsome
          · rwa [setKids_of_absent (Bool.eq_false_iff.mpr hany)] at hsome
        · rwa [kidsAt_setKids_ne hrole] at hsome
      · rw [heq, node_of_not_has (by simpa using hhas)] at hsome
        cases hsome
    · rwa [node_setRole_ne t heq] at hsome
  unfold remove at h
  split at h
  · cases h
  · split at h
    · cases h
      exact hback _ _ .empty rfl honly
    · cases h
      exact hback _ _ (.many _) rfl honly

theorem remove_pruned (htidy : t.Tidy) (hid : t.Standing id) (h : t.remove id = .ok t') :
    Pruned (fun c => c == id) t t' := by
  obtain ⟨p, role, before, after, hparent, hexchanged⟩ := remove_exchanged htidy h
  obtain ⟨hp, hchild⟩ := hid.of_parent hparent
  have hedited := hexchanged.edited hp trivial (Supplied.nil t p [id])
  obtain ⟨occupants, hresult, hoccupants⟩ := hexchanged.result
  change t' = (t.detachAll [id]).setRole p role occupants at hresult
  have hkids := kids_detachAll t [id]
  refine ⟨hedited.undisturbed, ?_, ?_, fun a role c => only?_remove h, ?_, ?_⟩
  · intro a ha
    simpa [hresult] using ha
  · intro a
    rw [hresult, ← shape_detachAll t [id]]
    exact proj_node_update rfl a
  · intro a ha r
    -- Outside the list that holds the node there is nothing to take out.
    have hother : id ∉ t.listed a r → t.listed a r = (t.listed a r).filter fun c => !(c == id) :=
      fun hfree =>
      (filter_eq_self.mpr fun c hc => by simpa using fun heq : c = id => hfree (heq ▸ hc)).symm
    have hat : id ∈ (kidsAt role (t.node p).kids).toList := by simp [hexchanged.list_eq]
    rw [hresult, Tree.listed, Node.kidList, Node.kid]
    by_cases heq : a = p
    · subst heq
      rw [setRole, node_update_self (by simpa using hp.has), hkids]
      by_cases hrole : r = role
      · subst hrole
        have hnodup := hp.intact.nodup.sublist (kidsAt_sublist_allKids r (t.node a).kids)
        rw [kidsAt_setKids_self hexchanged.role_mem, hoccupants (hkids a), Tree.listed,
          Node.kidList, Node.kid, hexchanged.list_eq]
        rw [hexchanged.list_eq] at hnodup
        simp only [append_assoc, singleton_append, nodup_append, nodup_cons] at hnodup
        have hbefore : before.filter (fun c => !(c == id)) = before :=
          filter_eq_self.mpr fun c hc => by simpa using hnodup.2.2 c hc id (by simp)
        have hafter : after.filter (fun c => !(c == id)) = after :=
          filter_eq_self.mpr fun c hc => by simpa using fun heq : c = id => hnodup.2.1.1 (heq ▸ hc)
        simp [filter_append, hbefore, hafter]
      · rw [kidsAt_setKids_ne hrole]
        exact hother (not_mem_other_role hp.intact.nodup (Ne.symm hrole) hat)
    · rw [node_setRole_ne _ heq, hkids]
      refine hother fun hmem => heq ?_
      have hup := ha.intact.parent_child ((kidsAt_sublist_allKids r (t.node a).kids).subset hmem)
      rw [hparent] at hup
      exact (Option.some.inj hup).symm
  · intro c _ hc
    rw [beq_iff_eq.mp hc, hparent]
    exact ⟨by simp, hedited.cut (by simp) not_drawn_nil⟩

end UnitySharp.Tree
