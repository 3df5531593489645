import UnitySharp.Proofs.Tree.Graft
import UnitySharp.Tree.Query

/-!
# Loosened links

Some edits cut things out of a tree for a while before anything is planted again.  `Loosened` bounds
what has been cut so far.  An edit that draws on subtrees of the tree as it was makes a graft,
provided that links have been cut in these only.
-/

namespace UnitySharp.Tree

open List

variable {s t u v : Tree} {K L P Q : NodeId → Prop} {a b c id p top : NodeId} {parts : List Part}
  {tops before gone after ids : List NodeId} {role : Role} {occupants : Occupants NodeId}
  {kids : Kids NodeId}
  {node : Node}

theorem mem_of_mem_setKids (hc : c ∈ allKids (setKids role occupants kids)) :
    c ∈ occupants.toList ∨ c ∈ allKids kids := by
  by_cases hrole : kids.any (fun entry => entry.1 == role) = true
  · obtain ⟨first, last, hsplit, hset⟩ := exists_split_at_role hrole
    rw [hset, mem_append, mem_append] at hc
    rw [hsplit, mem_append, mem_append]
    tauto
  · rw [setKids_of_absent (Bool.not_eq_true _ ▸ hrole)] at hc
    exact Or.inr hc

theorem node_addLoose_old (ha : t.Has a) (node : Node) : (t.addLoose node).2.node a = t.node a := by
  cases a with
  | slot n => rfl
  | loose n =>
    have hn : n < t.loose.size := ha
    simp [addLoose, Tree.node, Array.getD_eq_getD_getElem?, Array.getElem?_push, Nat.ne_of_lt hn]

theorem node_addLoose_new (t : Tree) (node : Node) :
    (t.addLoose node).2.node (.loose t.loose.size) = node := by
  simp [addLoose, Tree.node, Array.getD_eq_getD_getElem?]

theorem eq_addLoose_of_new (ha : (t.addLoose node).2.Has a) (hnew : ¬t.Has a) :
    a = .loose t.loose.size := by
  cases a with
  | slot n => exact absurd ha hnew
  | loose n =>
    simp only [addLoose, Has, Array.size_push] at ha hnew
    rw [show n = t.loose.size by omega]

theorem placeAmong_parent {place : Place} (h : placeAmong p id kids = some place) :
    place.parent = p := by
  induction kids with
  | nil => simp [placeAmong] at h
  | cons entry rest ih =>
    obtain ⟨role, occupants⟩ := entry
    cases occupants with
    | empty => exact ih h
    | one child =>
      simp only [placeAmong] at h
      split at h
      · cases h
        rfl
      · exact ih h
    | many children =>
      simp only [placeAmong] at h
      split at h
      · cases h
        rfl
      · exact ih h

/-- From one tree to the next, links have been cut: a node may have lost children if it is in `K`,
and have lost its parent if it is in `P`, and is the same otherwise.  New nodes have no slot yet,
hold no old ones and bring no comments. -/
structure Loosened (K P : NodeId → Prop) (s t : Tree) : Prop where
  keeps : s.Keeps t
  slots : ∀ a, t.HasSlot a → s.HasSlot a
  fresh : ∀ a, t.Has a → ¬s.Has a → t.Laid a ∧ ∀ c ∈ t.children a, ¬s.Has c
  node : ∀ a, s.Has a → ∃ kids parent, t.node a = { s.node a with kids, parent } ∧
    ((K a ∧ ∀ c ∈ allKids kids, s.Has c → c ∈ s.children a) ∨ kids = (s.node a).kids) ∧
    ((P a ∧ parent = none) ∨ parent = (s.node a).parent)
  bare : s.Bare → t.Bare

namespace Loosened

theorem refl (t : Tree) : Loosened K P t t where
  keeps := Keeps.refl t
  slots := fun _ ha => ha
  fresh := fun _ ha hnew => absurd ha hnew
  node := fun _ _ => ⟨_, _, rfl, Or.inr rfl, Or.inr rfl⟩
  bare := fun h => h

section

variable (h : Loosened K P s t) (ha : s.Has a)

include h ha

theorem kids_eq (hK : ¬K a) : (t.node a).kids = (s.node a).kids := by
  obtain ⟨kids, parent, hnode, hkids, _⟩ := h.node a ha
  rw [hnode]
  exact hkids.resolve_left fun hcut => hK hcut.1

theorem children_eq (hK : ¬K a) : t.children a = s.children a :=
  congrArg allKids (h.kids_eq ha hK)

theorem child_of_child (hc : s.Has c) (hchild : c ∈ t.children a) : c ∈ s.children a := by
  obtain ⟨kids, parent, hnode, hkids, _⟩ := h.node a ha
  have hmem : c ∈ allKids kids := by
    rw [Tree.children, hnode] at hchild
    exact hchild
  rcases hkids with ⟨_, hsub⟩ | rfl
  · exact hsub c hmem hc
  · exact hmem

theorem parent_eq (hP : ¬P a) : t.parent a = s.parent a := by
  obtain ⟨kids, parent, hnode, _, hparent⟩ := h.node a ha
  rw [Tree.parent, hnode]
  exact hparent.resolve_left fun hcut => hP hcut.1

theorem parent_or : (P a ∧ t.parent a = none) ∨ t.parent a = s.parent a := by
  obtain ⟨kids, parent, hnode, _, hparent⟩ := h.node a ha
  rw [Tree.parent, hnode]
  exact hparent

theorem shape_eq : t.shape a = s.shape a := by
  obtain ⟨kids, parent, hnode, _⟩ := h.node a ha
  rw [Tree.shape, hnode]
  rfl

theorem frame (hK : ¬K a) (hP : ¬P a) : t.node a = s.node a := by
  obtain ⟨kids, parent, hnode, hkids, hparent⟩ := h.node a ha
  rw [hnode, hkids.resolve_left fun hcut => hK hcut.1, hparent.resolve_left fun hcut => hP hcut.1]

end

theorem beneath (h : Loosened K P s t) (hb : s.Has b) (hab : t.Beneath a b) : s.Beneath a b := by
  induction hab with
  | refl => exact Beneath.refl
  | @tail up low hup hlow ih =>
    have hold : s.Has up := by
      by_contra hnew
      exact (h.fresh up (has_of_mem_children hlow) hnew).2 low hlow hb
    exact (ih hold).trans (Beneath.of_child (h.child_of_child hold hb hlow))

theorem mono (h : Loosened K P s t) (hK : ∀ a, K a → L a) (hP : ∀ a, P a → Q a) :
    Loosened L Q s t where
  keeps := h.keeps
  slots := h.slots
  fresh := h.fresh
  node := by
    intro a ha
    obtain ⟨kids, parent, hnode, hkids, hparent⟩ := h.node a ha
    exact ⟨kids, parent, hnode, hkids.imp_left (And.imp_left (hK a)),
      hparent.imp_left (And.imp_left (hP a))⟩
  bare := h.bare

theorem trans (hst : Loosened K P s t) (htu : Loosened K P t u) : Loosened K P s u where
  keeps := hst.keeps.trans htu.keeps
  slots := fun a ha => hst.slots a (htu.slots a ha)
  fresh := by
    intro a ha hnew
    by_cases hmiddle : t.Has a
    · obtain ⟨hlaid, hkids⟩ := hst.fresh a hmiddle hnew
      refine ⟨htu.keeps.laid hmiddle hlaid, fun c hc hold => ?_⟩
      exact hkids c (htu.child_of_child hmiddle (hst.keeps.has hold) hc) hold
    · obtain ⟨hlaid, hkids⟩ := htu.fresh a ha hmiddle
      exact ⟨hlaid, fun c hc hold => hkids c hc (hst.keeps.has hold)⟩
  node := by
    intro a ha
    obtain ⟨kids, parent, hnode, hkids, hparent⟩ := hst.node a ha
    obtain ⟨kids', parent', hnode', hkids', hparent'⟩ := htu.node a (hst.keeps.has ha)
    refine ⟨kids', parent', by rw [hnode', hnode], ?_, ?_⟩
    · rw [Tree.children, hnode] at hkids'
      rcases hkids' with ⟨hK, hsub⟩ | heq
      · refine Or.inl ⟨hK, fun c hc hold => ?_⟩
        have hmem : c ∈ allKids kids := hsub c hc (hst.keeps.has hold)
        rcases hkids with ⟨_, hsub'⟩ | rfl
        · exact hsub' c hmem hold
        · exact hmem
      · exact heq ▸ hkids
    · rw [hnode] at hparent'
      rcases hparent' with hP | heq
      · exact Or.inl hP
      · exact heq ▸ hparent
  bare := fun hs => htu.bare (hst.bare hs)

theorem detachAll (t : Tree) (gone : List NodeId) :
    Loosened (fun _ => False) (· ∈ gone) t (t.detachAll gone) where
  keeps := Keeps.detachAll t gone
  slots := by
    intro a ha
    cases a with
    | slot n => exact (has_detachAll t gone (.slot n)).mp ha
    | loose n => exact ha.elim
  fresh := fun a ha hnew => absurd ((has_detachAll t gone a).mp ha) hnew
  node := by
    intro a _
    rw [node_detachAll]
    split
    · rename_i hmem
      exact ⟨_, none, rfl, Or.inr rfl, Or.inl ⟨hmem, rfl⟩⟩
    · exact ⟨_, _, rfl, Or.inr rfl, Or.inr rfl⟩
  bare := fun h => h.of_keeps (Keeps.detachAll t gone) fun a => (has_detachAll t gone a).mp

/-- Going on to change a role of a node, in which no other old nodes may stand than before. -/
theorem setRole (h : Loosened K P s t) (hK : K id)
    (hsub : ∀ c ∈ occupants.toList, s.Has c → c ∈ s.children id) :
    Loosened K P s (t.setRole id role occupants) where
  keeps := h.keeps.trans (Keeps.setRole t id role occupants)
  slots := fun a ha => h.slots a ((hasSlot_setRole t id a role occupants).mp ha)
  fresh := by
    intro a ha hnew
    have ha' : t.Has a := (has_setRole t id a role occupants).mp ha
    obtain ⟨hlaid, hkids⟩ := h.fresh a ha' hnew
    refine ⟨(Keeps.setRole t id role occupants).laid ha' hlaid, fun c hc hold => ?_⟩
    by_cases heq : a = id
    · subst heq
      rw [children_setRole_self ha'] at hc
      rcases mem_of_mem_setKids hc with hc | hc
      · exact absurd (hsub c hc hold) (by simp [children_of_not_has hnew])
      · exact hkids c hc hold
    · rw [children_setRole_ne t heq] at hc
      exact hkids c hc hold
  node := by
    intro a ha
    obtain ⟨kids, parent, hnode, hkids, hparent⟩ := h.node a ha
    by_cases heq : a = id
    · subst heq
      refine ⟨setKids role occupants kids, parent, ?_, Or.inl ⟨hK, fun c hc hold => ?_⟩, hparent⟩
      · rw [Tree.setRole, node_update_self (h.keeps.has ha), hnode]
      · rcases mem_of_mem_setKids hc with hc | hc
        · exact hsub c hc hold
        · rcases hkids with ⟨_, hsub'⟩ | rfl
          · exact hsub' c hc hold
          · exact hc
    · refine ⟨kids, parent, ?_, hkids, hparent⟩
      rw [Tree.setRole, node_update_ne t heq, hnode]
  bare := fun hs => (h.bare hs).update rfl

theorem of_same_store (hnodes : t.nodes = s.nodes) (hloose : t.loose = s.loose)
    (hkeeps : s.Keeps t) :
    Loosened K P s t where
  keeps := hkeeps
  slots := by
    intro a ha
    cases a with
    | slot n => simpa [HasSlot, hnodes] using ha
    | loose n => exact ha.elim
  fresh := by
    intro a ha hnew
    cases a with
    | slot n => exact absurd (by simpa [Has, hnodes] using ha) hnew
    | loose n => exact absurd (by simpa [Has, hloose] using ha) hnew
  node := by
    intro a _
    refine ⟨_, _, ?_, Or.inr rfl, Or.inr rfl⟩
    cases a <;> simp [Tree.node, hnodes, hloose]
  bare := fun h a => by
    have hnode : t.node a = s.node a := by cases a <;> simp [Tree.node, hnodes, hloose]
    rw [hnode]
    exact h a

theorem addLoose (hkids : node.kids = []) (hlaid : node.shape.kind.layout = [])
    (hcomments : node.comments = []) :
    Loosened K P t (t.addLoose node).2 where
  keeps := by
    have hnode : ∀ a, t.Has a → (t.addLoose node).2.node a = t.node a :=
      fun a ha => node_addLoose_old ha node
    exact {
      size_le := Nat.le_refl _
      loose_le := by simp [Tree.addLoose]
      root_eq := rfl
      kind_eq := fun a ha => by simp only [kind, shape, hnode a ha]
      roles_eq := fun a ha => by simp only [roles, hnode a ha]
      position_eq := fun a ha => by rw [hnode a ha]
      comments_eq := fun a ha => by rw [hnode a ha] }
  slots := fun _ ha => ha
  fresh := by
    intro a ha hnew
    have hid := eq_addLoose_of_new ha hnew
    subst hid
    simp [Laid, roles, kind, shape, children, Node.children, node_addLoose_new, hkids, hlaid,
      allKids_nil]
  node := fun a ha => ⟨_, _, node_addLoose_old ha node, Or.inr rfl, Or.inr rfl⟩
  bare := by
    intro h a
    by_cases hold : t.Has a
    · rw [node_addLoose_old hold]
      exact h a
    · by_cases hnew : (t.addLoose node).2.Has a
      · rw [eq_addLoose_of_new hnew hold, node_addLoose_new]
        exact hcomments
      · rw [node_of_not_has hnew]
        rfl

theorem remove {t' : Tree} (h : t.remove id = .ok t') :
    ∃ p, t.parent id = some p ∧ Loosened (· = p) (· = id) t t' ∧ t'.parent id = none := by
  unfold Tree.remove at h
  split at h
  · exact absurd h (by simp)
  · rename_i place hplace
    unfold Tree.place at hplace
    split at hplace
    · exact absurd hplace (by simp)
    · rename_i p hp
      split at hplace
      · rename_i found hfound
        cases hplace
        have hparent : place.parent = p := placeAmong_parent hfound
        rw [hparent] at h
        refine ⟨p, hp, ?_⟩
        have hid : t.Has id := by
          by_contra hnew
          rw [parent_of_not_has hnew] at hp
          exact absurd hp (by simp)
        have hcut : ∀ occupants : Occupants NodeId,
            (∀ c ∈ occupants.toList, c ∈ t.listed p place.role) →
            Loosened (· = p) (· = id) t ((t.setRole p place.role occupants).detach id) ∧
              ((t.setRole p place.role occupants).detach id).parent id = none := by
          intro occupants hsub
          refine ⟨?_, parent_setParent_self ((has_setRole _ _ _ _ _).mpr hid) none⟩
          have hset : Loosened (· = p) (· = id) t (t.setRole p place.role occupants) :=
            (refl t).setRole rfl fun c hc _ =>
              (kidsAt_sublist_allKids place.role (t.node p).kids).subset (hsub c hc)
          refine hset.trans ?_
          exact (detachAll _ [id]).mono (fun _ => False.elim) fun _ hmem => mem_singleton.mp hmem
        split at h
        · cases h
          exact hcut .empty (by simp [Occupants.toList])
        · rename_i index _
          cases h
          exact hcut (.many _) fun c hc => mem_of_mem_eraseIdx hc
      · exact absurd hplace (by simp)

theorem sameBeneath (h : Loosened K P s t) (hid : s.Intact id) (hK : ∀ a, s.Beneath id a → ¬K a)
    (hP : ∀ a, s.Within id a → ¬P a) : s.SameBeneath t id := fun a ha =>
  ⟨h.kids_eq (hid.beneath ha).has (hK a ha), fun hne =>
    h.parent_eq (hid.beneath ha).has (hP a ⟨ha, hne⟩)⟩

end Loosened

/-! ## Sources -/

def Drawn (t : Tree) (tops : List NodeId) (a : NodeId) : Prop :=
  ∃ top ∈ tops, t.Beneath top a

theorem not_drawn_nil : ¬t.Drawn [] a := by
  simp [Drawn]

/-- The subtrees that an edit under a node may draw on: they are intact, do not contain the node,
and are taken out in the course of the edit or have no parent. -/
def Sources (t : Tree) (p : NodeId) (gone tops : List NodeId) : Prop :=
  ∀ top ∈ tops, t.Intact top ∧ ¬t.Beneath top p ∧ (top ∈ gone ∨ t.parent top = none)

theorem Sources.drawn_parent {up : NodeId} (h : t.Sources p gone tops) (ha : t.Drawn tops a)
    (hkept : a ∉ gone) (hup : t.parent a = some up) : t.Drawn tops up := by
  obtain ⟨top, htop, hbelow⟩ := ha
  obtain ⟨hintact, _, horigin⟩ := h top htop
  by_cases heq : a = top
  · subst heq
    rcases horigin with hmem | hnone
    · exact absurd hmem hkept
    · rw [hnone] at hup
      exact absurd hup (by simp)
  · obtain ⟨holder, hholder, habove, _⟩ := hintact.holder ⟨hbelow, heq⟩
    rw [hup] at hholder
    exact ⟨top, htop, Option.some.inj hholder ▸ habove⟩

theorem Loosened.enclosed (h : Loosened K P s t) (hsources : s.Sources p gone tops) :
    Enclosed (s.Drawn tops) s (t.detachAll gone) where
  fresh := fun a ha hnew => (Keeps.detachAll t gone).laid ((has_detachAll t gone a).mp ha)
    (h.fresh a ((has_detachAll t gone a).mp ha) hnew).1
  inward := by
    intro a up ha hdisturbed hparent _
    rw [parent_detachAll] at hparent
    split at hparent
    · exact absurd hparent (by simp)
    · rename_i hkept
      rcases h.parent_or ha with ⟨_, hnone⟩ | hsame
      · rw [hnone] at hparent
        exact absurd hparent (by simp)
      · exact hsources.drawn_parent hdisturbed hkept (hsame ▸ hparent)
  closed := by
    rintro a b _ ⟨top, htop, hbelow⟩ hab
    exact ⟨top, htop, hbelow.trans hab⟩
  bare := fun hs => (h.bare hs).of_keeps (Keeps.detachAll t gone) fun a =>
    (has_detachAll t gone a).mp

theorem Loosened.graft (h : Loosened K P s t) (hsources : s.Sources p gone tops) (hp : s.Standing p)
    (hK : ∀ a, K a → s.Drawn tops a) (hP : ∀ a, P a → s.Drawn tops a)
    (hchildren : s.children p = before ++ gone ++ after)
    (hplanted : Planted (t.detachAll gone) v (some p) parts ids)
    (hdrawn : ∀ part ∈ parts, ∀ a, part.Covers (t.detachAll gone) a → s.Has a → s.Drawn tops a) :
    Graft (s.Drawn tops) s (t.detachAll gone) v p parts before gone after ids := by
  have hgoneChild : ∀ c ∈ gone, c ∈ s.children p := by
    intro c hc
    rw [hchildren]
    simp [hc]
  have hgone : ∀ c ∈ gone, s.parent c = some p := fun c hc =>
    hp.intact.parent_child (hgoneChild c hc)
  constructor
  · exact h.keeps.trans (Keeps.detachAll t gone)
  · intro a ha hfree hkept
    rw [node_detachAll, if_neg hkept]
    exact h.frame ha (fun hcut => hfree (hK a hcut)) fun hcut => hfree (hP a hcut)
  · intro a hmem hfree
    refine ⟨?_, by rw [parent_detachAll, if_pos hmem]⟩
    rw [children_detachAll]
    exact h.children_eq (hp.intact.child (hgoneChild a hmem)).has fun hcut => hfree (hK a hcut)
  · intro a c ha hfree hc hdisturbed
    by_contra hkept
    exact hfree (hsources.drawn_parent hdisturbed hkept (ha.parent_child hc))
  · exact hp.has
  · rintro ⟨top, htop, hbelow⟩
    exact (hsources top htop).2.1 hbelow
  · exact hchildren
  · exact hgone
  · exact fun hmem => hp.intact.not_own_child (hgoneChild p hmem)
  · exact hplanted
  · exact hdrawn

theorem setRole_eq_update (t : Tree) (id : NodeId) (role : Role) (occupants : Occupants NodeId) :
    t.setRole id role occupants = t.update id fun node =>
      { node with kids := setKids role occupants (t.node id).kids } :=
  update_congr rfl

theorem Graft.setRole_kids {D : NodeId → Prop} {first last : List NodeId}
    (h : Graft D s u v p parts (first ++ before) gone (after ++ last) ids)
    (hset : ∀ occupants, allKids (setKids role occupants (s.node p).kids) = first ++
      occupants.toList ++ last)
    (hnew : occupants.toList = before ++ ids ++ after) :
    allKids (setKids role occupants (v.node p).kids) = (first ++ before) ++ ids ++ (after ++ last) ∧
      (setKids role occupants (v.node p).kids).map Prod.fst = s.roles p := by
  have hnode : v.node p = s.node p := by
    rw [h.node_eq h.has h.free, h.same p h.has h.free h.apart]
  constructor
  · rw [hnode, hset, hnew]
    simp only [append_assoc]
  · rw [map_fst_setKids, hnode]
    rfl

/-- Cutting links in the sources, planting, and listing the planted nodes in a role disturbs the
sources only. -/
theorem Loosened.spared (h : Loosened K P s t) (hsources : s.Sources p gone tops)
    (hp : s.Standing p) (hK : ∀ a, K a → s.Drawn tops a) (hP : ∀ a, P a → s.Drawn tops a)
    (hrole : (s.node p).kids.any (fun entry => entry.1 == role) = true)
    (hold : (kidsAt role (s.node p).kids).toList = before ++ gone ++ after)
    (hnew : occupants.toList = before ++ ids ++ after)
    (hplanted : Planted (t.detachAll gone) v (some p) parts ids)
    (hdrawn : ∀ part ∈ parts, ∀ a, part.Covers (t.detachAll gone) a → s.Has a → s.Drawn tops a) :
    Spared (s.Drawn tops) s (v.setRole p role occupants) := by
  obtain ⟨first, last, hsplit, hset⟩ := exists_split_at_role hrole
  have hchildren : s.children p = (first ++ before) ++ gone ++ (after ++ last) := by
    have hsplit : s.children p = first ++ (before ++ gone ++ after) ++ last := by
      rw [← hold]
      exact hsplit
    rw [hsplit]
    simp only [append_assoc]
  have hgraft := h.graft hsources hp hK hP hchildren hplanted hdrawn
  obtain ⟨hkids, hroles⟩ := hgraft.setRole_kids hset hnew
  rw [setRole_eq_update]
  exact hgraft.spared (h.enclosed hsources) hkids hroles

end UnitySharp.Tree
