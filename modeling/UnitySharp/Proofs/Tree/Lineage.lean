import UnitySharp.Proofs.Tree.Turned

/-!
# Lineages

The ancestors of a standing node, the nearest first.  They are distinct slots, so a search along
them never runs out of fuel and is a search in a list.
-/

namespace UnitySharp.Tree

open List

variable {s t : Tree} {id c : NodeId} {ups : List NodeId} {holds : NodeKind → Bool} {fuel : Nat}

/-- The chain of parents of a node, up to one that has none. -/
inductive Lineage (t : Tree) : NodeId → List NodeId → Prop where
  | top {id : NodeId} (h : t.parent id = none) : Lineage t id []
  | up {id p : NodeId} {ups : List NodeId} (h : t.parent id = some p) (hups : Lineage t p ups) :
      Lineage t id (p :: ups)

theorem Standing.exists_lineage (h : t.Standing id) :
    ∃ ups, t.Lineage id ups ∧ (id :: ups).Nodup ∧ ∀ up ∈ id :: ups, t.Standing up ∧
      t.Beneath up id := by
  obtain ⟨top, hparent, htop, hbelow⟩ := h
  have htopS : t.Standing top := Standing.of_top hparent htop
  induction hbelow with
  | refl =>
    refine ⟨[], .top hparent, by simp, ?_⟩
    intro up hup
    cases mem_singleton.mp hup
    exact ⟨htopS, Beneath.refl⟩
  | @tail holder low hholder hlow ih =>
    obtain ⟨ups, hups, hnodup, habove⟩ := ih
    have hholderS := htopS.beneath hholder
    refine ⟨holder :: ups, .up (hholderS.intact.parent_child hlow) hups, ?_, ?_⟩
    · rw [nodup_cons]
      refine ⟨fun hmem => ?_, hnodup⟩
      exact hholderS.intact.not_beneath_of_child hlow (habove low hmem).2
    · intro up hup
      rcases mem_cons.mp hup with rfl | hup
      · exact ⟨hholderS.child hlow, Beneath.refl⟩
      · exact ⟨(habove up hup).1, (habove up hup).2.tail hlow⟩

theorem Lineage.ancestorWithin_eq (h : t.Lineage id ups) (hfuel : ups.length ≤ fuel) :
    t.ancestorWithin holds fuel id = ups.find? fun up => holds (t.kind up) := by
  induction h generalizing fuel with
  | top hnone => cases fuel <;> simp [ancestorWithin, hnone]
  | up hsome _ ih =>
    cases fuel with
    | zero => exact absurd hfuel (by simp)
    | succ fuel =>
      simp only [ancestorWithin, hsome, find?_cons]
      split
      · rename_i htrue
        simp [htrue]
      · rename_i hfalse
        rw [ih (by simpa using hfuel)]
        simp [hfalse]

theorem Lineage.ancestor?_eq (h : t.Lineage id ups) (hnodup : ups.Nodup)
    (hups : ∀ up ∈ ups, t.Standing up) :
    t.ancestor? holds id = ups.find? fun up => holds (t.kind up) :=
  h.ancestorWithin_eq (length_le_size hnodup fun up hup => (hups up hup).intact.hasSlot)

theorem Lineage.topWithin_eq {top : NodeId} (h : t.Lineage id ups) (htop : t.Intact top)
    (hnone : t.parent top = none) (hbelow : t.Beneath top id) (hfuel : ups.length ≤ fuel) :
    t.topWithin fuel id = top := by
  induction h generalizing fuel with
  | top hself =>
    rw [htop.eq_of_parent_none hbelow hself]
    cases fuel <;> simp [topWithin, hnone]
  | up hsome _ ih =>
    rcases hbelow.eq_or_holder with heq | ⟨holder, hholder, hchild⟩
    · rw [heq, hnone] at hsome
      cases hsome
    · rw [(htop.beneath hholder).parent_child hchild] at hsome
      cases hsome
      cases fuel with
      | zero => exact absurd hfuel (by simp)
      | succ fuel =>
        rw [topWithin, (htop.beneath hholder).parent_child hchild]
        exact ih hholder (by simpa using hfuel)

theorem Sound.isAttached (hsound : t.Sound) (hbelow : t.Beneath t.root id) :
    t.isAttached id = true := by
  obtain ⟨ups, hups, hnodup, habove⟩ := (hsound.standing.beneath hbelow).exists_lineage
  rw [nodup_cons] at hnodup
  have hlength : ups.length ≤ t.size :=
    length_le_size hnodup.2 fun up hup => (habove up (mem_cons_of_mem _ hup)).1.intact.hasSlot
  exact beq_iff_eq.mpr (hups.topWithin_eq hsound.intact hsound.top hbelow hlength)

theorem ancestor?_above {owner : NodeId} (hid : t.Standing id)
    (h : t.ancestor? holds id = some owner) :
    t.Standing owner ∧ t.Beneath owner id ∧ owner ≠ id := by
  obtain ⟨ups, hups, hnodup, habove⟩ := hid.exists_lineage
  rw [nodup_cons] at hnodup
  rw [hups.ancestor?_eq hnodup.2 fun up hup => (habove up (mem_cons_of_mem _ hup)).1] at h
  have hmem := mem_of_find?_eq_some h
  obtain ⟨hstanding, hbelow⟩ := habove owner (mem_cons_of_mem _ hmem)
  exact ⟨hstanding, hbelow, fun heq => hnodup.1 (heq ▸ hmem)⟩

theorem ancestor?_top (h : t.parent id = none) : t.ancestor? holds id = none :=
  (Lineage.top h).ancestor?_eq nodup_nil (by simp)

theorem ancestor?_child (hid : t.Standing id) (hc : c ∈ t.children id) :
    t.ancestor? holds c = if holds (t.kind id) then some id else t.ancestor? holds id := by
  obtain ⟨ups, hups, hnodup, habove⟩ := hid.exists_lineage
  have hparent := hid.intact.parent_child hc
  rw [(Lineage.up hparent hups).ancestor?_eq hnodup fun up hup => (habove up hup).1,
    hups.ancestor?_eq (nodup_cons.mp hnodup).2 fun up hup => (habove up (mem_cons_of_mem _ hup)).1,
    find?_cons]
  cases holds (t.kind id) <;> rfl

theorem Inside.lineage (h : Inside s t id) (hups : s.Lineage id ups)
    (habove : ∀ up ∈ ups, s.Standing up ∧ ¬s.Beneath id up) : t.Lineage id ups := by
  have hfrom : ∀ ups low, s.Lineage low ups → (∀ up ∈ ups, s.Standing up ∧ ¬s.Beneath id up) →
      t.parent low = s.parent low → t.Lineage low ups := by
    intro ups
    induction ups with
    | nil =>
      rintro low ⟨hnone⟩ _ hparent
      exact .top (hparent.trans hnone)
    | cons up rest ih =>
      intro low hlow hall hparent
      cases hlow with
      | up hsome hrest =>
        refine .up (hparent.trans hsome)
          (ih up hrest (fun x hx => hall x (mem_cons_of_mem _ hx)) ?_)
        obtain ⟨hup, hoff⟩ := hall up mem_cons_self
        rw [parent, h.frame up hup.has hoff]
        rfl
  exact hfrom ups id hups habove h.parent_eq

theorem Inside.ancestor?_eq (h : Inside s t id) (hid : s.Standing id) :
    t.ancestor? holds id = s.ancestor? holds id := by
  obtain ⟨ups, hups, hnodup, habove⟩ := hid.exists_lineage
  rw [nodup_cons] at hnodup
  have hoff : ∀ up ∈ ups, s.Standing up ∧ ¬s.Beneath id up := fun up hup =>
    ⟨(habove up (mem_cons_of_mem _ hup)).1, fun hbelow =>
      hnodup.1 (hid.intact.beneath_antisymm hbelow (habove up (mem_cons_of_mem _ hup)).2 ▸ hup)⟩
  have hstanding : ∀ up ∈ ups, t.Standing up := fun up hup =>
    h.spared.standing up (hoff up hup).1 fun hwithin => (hoff up hup).2 hwithin.1
  rw [(h.lineage hups hoff).ancestor?_eq hnodup.2 hstanding,
    hups.ancestor?_eq hnodup.2 fun up hup => (hoff up hup).1]
  have hkind : ∀ up ∈ ups, holds (t.kind up) = holds (s.kind up) := fun up hup => by
    rw [h.spared.keeps.kind_eq up (hoff up hup).1.has]
  clear * - hkind
  induction ups with
  | nil => rfl
  | cons up rest ih =>
    rw [forall_mem_cons] at hkind
    rw [find?_cons, find?_cons, hkind.1, ih hkind.2]

end UnitySharp.Tree
