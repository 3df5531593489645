import UnitySharp.Proofs.Tree.Planting

/-!
# Grafts

Every edit is a graft: some children of a node are cut off, drafts are planted, and the planted
nodes are listed in their place.  It disturbs the nodes that its parts are drawn from: what is
intact outside stays so (`Graft.intact`), and only planted nodes get beneath it (`Graft.reached`).
-/

namespace UnitySharp

open List

namespace Tree

variable {s t u v : Tree} {D : NodeId → Prop} {a b c id p : NodeId}

/-! ## What a graft disturbs -/

/-- The tree `s` has been changed into `u` by cutting off the children `gone` of the node `p` and
perhaps tampering with the nodes of `D`; planting has made it `v`, and the planted nodes are to be
listed by `p` between `before` and `after`. -/
structure Graft (D : NodeId → Prop) (s u v : Tree) (p : NodeId) (parts : List Part)
    (before gone after ids : List NodeId) : Prop where
  keeps : s.Keeps u
  same : ∀ a, s.Has a → ¬D a → a ∉ gone → u.node a = s.node a
  cut : ∀ a ∈ gone, ¬D a → u.children a = s.children a ∧ u.parent a = none
  entry : ∀ a c, s.Intact a → ¬D a → c ∈ s.children a → D c → c ∈ gone
  has : s.Has p
  free : ¬D p
  children_eq : s.children p = before ++ gone ++ after
  parents : ∀ c ∈ gone, s.parent c = some p
  apart : p ∉ gone
  planted : Planted u v (some p) parts ids
  drawn : ∀ part ∈ parts, ∀ a, part.Covers u a → s.Has a → D a

/-- What a graft draws on is closed off: it contains what is beneath its nodes and their parents,
and nodes that are new in the tree made ready for planting have the roles of their kinds and bring
no comments. -/
structure Enclosed (D : NodeId → Prop) (s u : Tree) : Prop where
  fresh : ∀ a, u.Has a → ¬s.Has a → u.Laid a
  inward : ∀ a up, s.Has a → D a → u.parent a = some up → s.Has up → D up
  closed : ∀ a b, s.Standing a → D a → s.Beneath a b → D b
  bare : s.Bare → u.Bare

namespace Graft

variable {parts : List Part} {before gone after ids : List NodeId} {kids : Kids NodeId}

section

variable (h : Graft D s u v p parts before gone after ids)

include h

theorem node_eq (ha : s.Has a) (hD : ¬D a) : v.node a = u.node a := by
  apply h.planted.frame a (h.keeps.has ha)
  intro part hpart hcovers
  exact hD (h.drawn part hpart a hcovers ha)

theorem children_planted (ha : s.Has a) (hD : ¬D a) : v.children a = s.children a := by
  simp only [children, h.node_eq ha hD]
  by_cases hgone : a ∈ gone
  · exact (h.cut a hgone hD).1
  · rw [h.same a ha hD hgone]

theorem has_planted : v.Has p :=
  h.planted.keeps.has (h.keeps.has h.has)

theorem children_grafted_ne (kids : Kids NodeId) (ha : s.Has a) (hD : ¬D a) (hne : a ≠ p) :
    (v.update p fun node => { node with kids }).children a = s.children a := by
  rw [← h.children_planted ha hD]
  simp only [children, node_update_ne v hne]

theorem children_grafted (hkids : allKids kids = before ++ ids ++ after) :
    (v.update p fun node => { node with kids }).children p = before ++ ids ++ after := by
  simp only [children, node_update_self h.has_planted, Node.children, hkids]

theorem parent_same (ha : s.Has a) (hD : ¬D a) (hgone : a ∉ gone) : v.parent a = s.parent a := by
  simp only [parent, h.node_eq ha hD, h.same a ha hD hgone]

theorem parent_cut (ha : s.Has a) (hD : ¬D a) (hgone : a ∈ gone) : v.parent a = none := by
  simp only [parent, h.node_eq ha hD]
  exact (h.cut a hgone hD).2

theorem not_beneath_planted (hid : id ∈ ids) : ¬v.Beneath id p := by
  intro hbelow
  obtain ⟨part, hpart, hcovers⟩ := h.planted.region id hid p hbelow (h.keeps.has h.has)
  exact h.free (h.drawn part hpart p hcovers h.has)

theorem children_below_planted (hid : id ∈ ids) (hbelow : v.Beneath id a) :
    (v.update p fun node => { node with kids }).children a = v.children a := by
  have hne : a ≠ p := by
    intro heq
    exact h.not_beneath_planted hid (heq ▸ hbelow)
  simp only [children, node_update_ne v hne]

theorem intact_planted (kids : Kids NodeId) (hid : id ∈ ids) :
    (v.update p fun node => { node with kids }).Intact id :=
  (h.planted.intact id hid).transfer (fun a ha => by simpa using ha)
    (fun _ ha => h.children_below_planted hid ha) fun a _ => parent_update_kids v p a

theorem planted_of_beneath (hid : id ∈ ids)
    (hbelow : (v.update p fun node => { node with kids }).Beneath id a) :
    v.Beneath id a :=
  hbelow.of_transfer fun _ ha => h.children_below_planted hid ha

theorem beneath_of_planted (hid : id ∈ ids) (hbelow : v.Beneath id a) :
    (v.update p fun node => { node with kids }).Beneath id a :=
  hbelow.transfer fun _ ha => h.children_below_planted hid ha

theorem drawn_of_planted (hid : id ∈ ids) (hbelow : v.Beneath id a) (ha : s.Has a) : D a := by
  obtain ⟨part, hpart, hcovers⟩ := h.planted.region id hid a hbelow (h.keeps.has ha)
  exact h.drawn part hpart a hcovers ha

theorem child_free (ha : s.Intact a) (hD : ¬D a) (hne : a ≠ p) (hc : c ∈ s.children a) :
    ¬D c ∧ c ∉ gone := by
  have hkept : c ∉ gone := by
    intro hgone
    have hparent : some a = some p := by
      rw [← ha.parent_child hc, h.parents c hgone]
    exact hne (Option.some.inj hparent)
  exact ⟨fun hdisturbed => hkept (h.entry a c ha hD hc hdisturbed), hkept⟩

theorem kept_free (hp : s.Intact p) (hc : c ∈ before ∨ c ∈ after) : ¬D c ∧ c ∉ gone := by
  have hnodup : (before ++ gone ++ after).Nodup := h.children_eq ▸ hp.nodup
  have hkept : c ∉ gone := by
    intro hgone
    rw [nodup_append, nodup_append] at hnodup
    obtain ⟨⟨_, _, hbefore⟩, _, hafter⟩ := hnodup
    rcases hc with hc | hc
    · exact hbefore c hc c hgone rfl
    · exact hafter c (mem_append_right _ hgone) c hc rfl
  refine ⟨fun hdisturbed => hkept (h.entry p c hp h.free ?_ hdisturbed), hkept⟩
  rw [h.children_eq]
  simp only [mem_append]
  tauto

theorem kept_child (hc : c ∈ before ∨ c ∈ after) : c ∈ s.children p := by
  rw [h.children_eq]
  simp only [mem_append]
  tauto

theorem nodup_grafted (hp : s.Intact p) : (before ++ ids ++ after).Nodup := by
  have hnodup : (before ++ gone ++ after).Nodup := h.children_eq ▸ hp.nodup
  have hdisjoint : ∀ c, c ∈ before ∨ c ∈ after → c ∉ ids := by
    intro c hc hid
    have hhas : s.Has c := (hp.child (h.kept_child hc)).has
    exact (h.kept_free hp hc).1 (h.drawn_of_planted hid Beneath.refl hhas)
  rw [nodup_append, nodup_append] at hnodup ⊢
  obtain ⟨⟨hbefore, _, _⟩, hafter, hacross⟩ := hnodup
  refine ⟨⟨hbefore, h.planted.nodup, ?_⟩, hafter, ?_⟩
  · intro x hx y hy heq
    exact hdisjoint x (Or.inl hx) (heq ▸ hy)
  · intro x hx y hy heq
    rcases mem_append.mp hx with hx | hx
    · exact hacross x (mem_append_left _ hx) y hy heq
    · exact hdisjoint y (Or.inr hy) (heq ▸ hx)

theorem keeps_grafted (hroles : kids.map Prod.fst = s.roles p) :
    s.Keeps (v.update p fun node => { node with kids }) := by
  refine (h.keeps.trans h.planted.keeps).update (fun _ => rfl) ?_ (fun _ => rfl) fun _ => rfl
  intro _
  rw [h.node_eq h.has h.free, h.same p h.has h.free h.apart]
  exact hroles

theorem fresh_grafted (hfresh : ∀ a, u.Has a → ¬s.Has a → u.Laid a) (a : NodeId)
    (ha : (v.update p fun node => { node with kids }).Has a) (hnew : ¬s.Has a) :
    (v.update p fun node => { node with kids }).Laid a := by
  have hne : a ≠ p := by
    intro heq
    exact hnew (heq ▸ h.has)
  have hv : v.Laid a := by
    by_cases hmiddle : u.Has a
    · exact h.planted.keeps.laid hmiddle (hfresh a hmiddle hnew)
    · exact h.planted.fresh a (by simpa using ha) hmiddle
  simpa only [Laid, roles, kind, shape, node_update_ne v hne] using hv

section

variable (hkids : allKids kids = before ++ ids ++ after)

include hkids

theorem intact (hroles : kids.map Prod.fst = s.roles p) (ha : s.Intact a) (hD : ¬D a) :
    (v.update p fun node => { node with kids }).Intact a := by
  induction ha with
  | @intro a hslot hnodup hheld hbelow ih =>
    have ha : s.Intact a := .intro hslot hnodup hheld hbelow
    by_cases heq : a = p
    · subst heq
      refine .intro ((h.keeps_grafted hroles).hasSlot hslot) ?_ ?_ ?_
      · rw [h.children_grafted hkids]
        exact h.nodup_grafted ha
      · intro c hc
        rw [h.children_grafted hkids, mem_append, mem_append, or_assoc] at hc
        rw [parent_update_kids]
        rcases hc with hc | hc | hc
        · have hfree := h.kept_free ha (Or.inl hc)
          have hchild := h.kept_child (Or.inl hc)
          rw [h.parent_same (ha.child hchild).has hfree.1 hfree.2]
          exact hheld c hchild
        · exact h.planted.linked c hc
        · have hfree := h.kept_free ha (Or.inr hc)
          have hchild := h.kept_child (Or.inr hc)
          rw [h.parent_same (ha.child hchild).has hfree.1 hfree.2]
          exact hheld c hchild
      · intro c hc
        rw [h.children_grafted hkids, mem_append, mem_append, or_assoc] at hc
        rcases hc with hc | hc | hc
        · exact ih c (h.kept_child (Or.inl hc)) (h.kept_free ha (Or.inl hc)).1
        · exact h.intact_planted kids hc
        · exact ih c (h.kept_child (Or.inr hc)) (h.kept_free ha (Or.inr hc)).1
    · have hsame := h.children_grafted_ne kids ha.has hD heq
      refine .intro ((h.keeps_grafted hroles).hasSlot hslot) (by rw [hsame]; exact hnodup) ?_ ?_
      · intro c hc
        rw [hsame] at hc
        have hfree := h.child_free ha hD heq hc
        rw [parent_update_kids, h.parent_same (ha.child hc).has hfree.1 hfree.2]
        exact hheld c hc
      · intro c hc
        rw [hsame] at hc
        exact ih c hc (h.child_free ha hD heq hc).1

theorem reached (ha : s.Intact a) (hD : ¬D a)
    (hbelow : (v.update p fun node => { node with kids }).Beneath a b) :
    (¬D b ∧ s.Beneath a b) ∨ (s.Beneath a p ∧ ∃ id ∈ ids, v.Beneath id b) := by
  induction hbelow using Relation.ReflTransGen.head_induction_on with
  | refl => exact Or.inl ⟨hD, Beneath.refl⟩
  | @head a c hc hcb ih =>
    -- A kept child stays a child, and an argument about it carries over to its holder.
    have hkept : c ∈ s.children a → ¬D c →
        (¬D b ∧ s.Beneath a b) ∨ (s.Beneath a p ∧ ∃ id ∈ ids, v.Beneath id b) := by
      intro hchild hfree
      rcases ih (ha.child hchild) hfree with ⟨hb, hbelow⟩ | ⟨habove, hplanted⟩
      · exact Or.inl ⟨hb, hbelow.below_child hchild⟩
      · exact Or.inr ⟨habove.below_child hchild, hplanted⟩
    by_cases heq : a = p
    · subst heq
      rw [h.children_grafted hkids, mem_append, mem_append, or_assoc] at hc
      rcases hc with hc | hc | hc
      · exact hkept (h.kept_child (Or.inl hc)) (h.kept_free ha (Or.inl hc)).1
      · exact Or.inr ⟨Beneath.refl, c, hc, h.planted_of_beneath hc hcb⟩
      · exact hkept (h.kept_child (Or.inr hc)) (h.kept_free ha (Or.inr hc)).1
    · rw [h.children_grafted_ne kids ha.has hD heq] at hc
      exact hkept hc (h.child_free ha hD heq hc).1

theorem beneath (ha : s.Intact a) (hD : ¬D a)
    (hbelow : (v.update p fun node => { node with kids }).Beneath a b) (hb : s.Has b) :
    s.Beneath a b ∨ (D b ∧ s.Beneath a p) := by
  rcases h.reached hkids ha hD hbelow with ⟨_, hbefore⟩ | ⟨habove, id, hid, hplanted⟩
  · exact Or.inl hbefore
  · exact Or.inr ⟨h.drawn_of_planted hid hplanted hb, habove⟩

end

variable (henclosed : Enclosed D s u) (hkids : allKids kids = before ++ ids ++ after)

include henclosed hkids

theorem listed {up : NodeId} (hc : s.Has c) (hup : s.Has up) (hD : ¬D up)
    (hparent : (v.update p fun node => { node with kids }).parent c = some up) :
    c ∈ (v.update p fun node => { node with kids }).children up ∨
      (s.parent c = some up ∧ c ∉ s.children up) := by
  by_cases hcovered : ∃ part ∈ parts, part.Covers u c
  · -- A part hangs where it has been planted, and its holder there lists it.
    obtain ⟨part, hpart, hcovers⟩ := hcovered
    obtain ⟨id, hid, hbelow⟩ := h.planted.covered part hpart c hcovers
    by_cases heq : c = id
    · subst heq
      rw [parent_update_kids, h.planted.linked c hid] at hparent
      have hsame : p = up := Option.some.inj hparent
      subst hsame
      rw [h.children_grafted hkids]
      exact Or.inl (by simp [hid])
    · obtain ⟨holder, hholder, _, hchild⟩ :=
        (h.intact_planted kids hid).holder ⟨h.beneath_of_planted hid hbelow, heq⟩
      rw [hparent] at hholder
      rw [Option.some.inj hholder]
      exact Or.inl hchild
  · have hnode : v.node c = u.node c := by
      apply h.planted.frame c (h.keeps.has hc)
      intro part hpart hcovers
      exact hcovered ⟨part, hpart, hcovers⟩
    have huparent : u.parent c = some up := by
      rw [parent_update_kids] at hparent
      simpa only [parent, hnode] using hparent
    have hfree : ¬D c := fun hdisturbed => hD (henclosed.inward c up hc hdisturbed huparent hup)
    have hkept : c ∉ gone := by
      intro hgone
      rw [(h.cut c hgone hfree).2] at huparent
      exact absurd huparent (by simp)
    have hsparent : s.parent c = some up := by
      simpa only [parent, h.same c hc hfree hkept] using huparent
    by_cases hlisted : c ∈ s.children up
    · refine Or.inl ?_
      by_cases heq : up = p
      · subst heq
        rw [h.children_grafted hkids]
        rw [h.children_eq] at hlisted
        simp only [mem_append] at hlisted ⊢
        tauto
      · rw [h.children_grafted_ne kids hup hD heq]
        exact hlisted
    · exact Or.inr ⟨hsparent, hlisted⟩

theorem spared (hroles : kids.map Prod.fst = s.roles p) :
    Spared D s (v.update p fun node => { node with kids }) := by
  apply Spared.of_links (h.keeps_grafted hroles) (h.fresh_grafted henclosed.fresh) henclosed.closed
  · exact fun a ha hD => h.intact hkids hroles ha hD
  · intro c hc hD
    rw [parent_update_kids]
    by_cases hgone : c ∈ gone
    · exact Or.inr (h.parent_cut hc hD hgone)
    · exact Or.inl (h.parent_same hc hD hgone)
  · intro a b ha hD hbelow hb
    exact (h.beneath hkids ha hD hbelow hb).imp_right And.left
  · exact fun c up hc hup hD => h.listed henclosed hkids hc hup hD
  · exact fun hs => (h.planted.bare (henclosed.bare hs)).update rfl

end

end Graft

end Tree

end UnitySharp
