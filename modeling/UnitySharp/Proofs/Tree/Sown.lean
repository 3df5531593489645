import UnitySharp.Proofs.Tree.Treelike

/-!
# Putting parts together

Whatever is put into a tree is put together from parts, the nodes that a node is to hold before the
node itself.  `Sown` says what comes out: subtrees of slots, which consist of the parts and of new
nodes and are apart from each other.
-/

namespace UnitySharp

open List

variable {t t' u : Tree} {a b id p : NodeId} {parts first second : List Part}
  {ids others : List NodeId}

namespace Tree

variable {s : Tree} {c top : NodeId}

/-- Some parts have been put together, which has led from one tree to the next.  The nodes that have
come out are treelike, have slots all the way down and are apart from each other; they hold the
parts and new nodes only, new nodes have the roles of their kinds and no comments of their own, and
nothing else has changed. -/
structure Sown (t t' : Tree) (parts : List Part) (ids : List NodeId) : Prop where
  keeps : t.Keeps t'
  fresh : ∀ a, t'.Has a → ¬t.Has a → t'.Laid a
  frame : ∀ a, t.Has a → (∀ part ∈ parts, ¬part.Covers t a) → t'.node a = t.node a
  treelike : ∀ id ∈ ids, t'.Treelike id
  slots : ∀ id ∈ ids, ∀ a, t'.Beneath id a → t'.HasSlot a
  apart : ids.Pairwise t'.Apart
  region : ∀ id ∈ ids, ∀ a, t'.Beneath id a → t.Has a → ∃ part ∈ parts, part.Covers t a
  covered : ∀ part ∈ parts, ∀ a, part.Covers t a → ∃ id ∈ ids, t'.Beneath id a
  added : ∀ a, t'.Has a → ¬t.Has a → ∃ id ∈ ids, t'.Beneath id a
  bare : t.Bare → t'.Bare

theorem Sown.nodup (h : Sown t t' parts ids) : ids.Nodup :=
  nodup_of_apart h.apart

theorem Sown.has (h : Sown t t' parts ids) (hid : id ∈ ids) (hbelow : t'.Beneath id a) : t'.Has a :=
  ((h.treelike id hid).beneath hbelow).has

end Tree

open UnitySharp.Tree

theorem PartsReady.after (h : PartsReady t (first ++ second)) (hsown : Sown t u first ids) :
    PartsReady u second ∧ ∀ part ∈ second, ∀ a, part.Covers u a ↔ part.Covers t a := by
  apply h.right.transfer hsown.keeps
  intro top htop a hbelow
  have hready : (Part.whole top).Ready t := h.right.ready _ htop
  rw [hsown.frame a (hready.has_of_beneath hbelow)]
  intro part hpart hcovers
  exact h.across hpart htop hcovers ⟨hbelow, hcovers.hasSlot⟩

theorem PartsReady.same_after (h : PartsReady t (first ++ second)) (hfirst : Sown t t' first ids)
    (hsecond : Sown t' u second others) (hid : id ∈ ids) (hbelow : t'.Beneath id a) :
      u.node a = t'.node a := by
  apply hsecond.frame a (hfirst.has hid hbelow)
  intro part hpart hcovers
  rw [(h.after hfirst).2 part hpart a] at hcovers
  obtain ⟨x, hx, hxa⟩ := hfirst.region id hid a hbelow hcovers.hasSlot.has
  exact h.across hx hpart hxa hcovers

namespace Tree

variable {kids : Kids NodeId} {f : Tree → NodeId → NodeId × Tree}

namespace Sown

variable {inner : List Part}

theorem nil (t : Tree) : Sown t t [] [] where
  keeps := Keeps.refl t
  fresh := fun _ ha hnew => absurd ha hnew
  frame := fun _ _ _ => rfl
  treelike := by simp
  slots := by simp
  apart := List.Pairwise.nil
  region := by simp
  covered := by simp
  added := fun _ ha hnew => absurd ha hnew
  bare := fun h => h

theorem congr {others : List Part} (h : Sown t t' parts ids)
    (hcovers : ∀ a, (∃ part ∈ parts, part.Covers t a) ↔ ∃ part ∈ others, part.Covers t a) :
    Sown t t' others ids where
  keeps := h.keeps
  fresh := h.fresh
  frame := fun a ha huncovered => h.frame a ha fun part hpart hcovered => by
    obtain ⟨other, hother, hoverlap⟩ := (hcovers a).mp ⟨part, hpart, hcovered⟩
    exact huncovered other hother hoverlap
  treelike := h.treelike
  slots := h.slots
  apart := h.apart
  region := fun id hid a hbelow ha => (hcovers a).mp (h.region id hid a hbelow ha)
  covered := fun part hpart a hcovered => by
    obtain ⟨other, hother, hoverlap⟩ := (hcovers a).mpr ⟨part, hpart, hcovered⟩
    exact h.covered other hother a hoverlap
  added := h.added
  bare := h.bare

theorem append (hready : PartsReady t (first ++ second)) (hfirst : Sown t t' first ids)
    (hsecond : Sown t' u second others) : Sown t u (first ++ second) (ids ++ others) := by
  have hcovers := (hready.after hfirst).2
  have hsame : ∀ id ∈ ids, ∀ a, t'.Beneath id a → u.node a = t'.node a :=
    fun id hid a => hready.same_after hfirst hsecond hid
  have hbeneath : ∀ id ∈ ids, ∀ a, u.Beneath id a ↔ t'.Beneath id a :=
    fun id hid a => beneath_iff_of_same_nodes (hsame id hid)
  constructor
  · exact hfirst.keeps.trans hsecond.keeps
  · intro a ha hnew
    by_cases hmiddle : t'.Has a
    · exact hsecond.keeps.laid hmiddle (hfirst.fresh a hmiddle hnew)
    · exact hsecond.fresh a ha hmiddle
  · intro a ha huncovered
    rw [hsecond.frame a (hfirst.keeps.has ha), hfirst.frame a ha]
    · exact fun part hpart => huncovered part (mem_append_left _ hpart)
    · intro part hpart hcovered
      exact huncovered part (mem_append_right _ hpart) ((hcovers part hpart a).mp hcovered)
  · intro id hid
    rcases mem_append.mp hid with hid | hid
    · exact (hfirst.treelike id hid).transfer (fun _ => hsecond.keeps.has)
        fun a ha => congrArg Node.children (hsame id hid a ha)
    · exact hsecond.treelike id hid
  · intro id hid a hbelow
    rcases mem_append.mp hid with hid | hid
    · exact hsecond.keeps.hasSlot (hfirst.slots id hid a ((hbeneath id hid a).mp hbelow))
    · exact hsecond.slots id hid a hbelow
  · refine pairwise_append.mpr ⟨?_, hsecond.apart, ?_⟩
    · refine hfirst.apart.imp_of_mem ?_
      intro x y hx hy hapart c hxc hyc
      exact hapart c ((hbeneath x hx c).mp hxc) ((hbeneath y hy c).mp hyc)
    · intro x hx y hy c hxc hyc
      rw [hbeneath x hx c] at hxc
      obtain ⟨part, hpart, hcovered⟩ := hsecond.region y hy c hyc (hfirst.has hx hxc)
      rw [hcovers part hpart c] at hcovered
      obtain ⟨other, hother, hoverlap⟩ := hfirst.region x hx c hxc hcovered.hasSlot.has
      exact hready.across hother hpart hoverlap hcovered
  · intro id hid a hbelow ha
    rcases mem_append.mp hid with hid | hid
    · rw [hbeneath id hid a] at hbelow
      obtain ⟨part, hpart, hcovered⟩ := hfirst.region id hid a hbelow ha
      exact ⟨part, mem_append_left _ hpart, hcovered⟩
    · obtain ⟨part, hpart, hcovered⟩ := hsecond.region id hid a hbelow (hfirst.keeps.has ha)
      exact ⟨part, mem_append_right _ hpart, (hcovers part hpart a).mp hcovered⟩
  · intro part hpart a hcovered
    rcases mem_append.mp hpart with hpart | hpart
    · obtain ⟨id, hid, hbelow⟩ := hfirst.covered part hpart a hcovered
      exact ⟨id, mem_append_left _ hid, (hbeneath id hid a).mpr hbelow⟩
    · obtain ⟨id, hid, hbelow⟩ :=
        hsecond.covered part hpart a ((hcovers part hpart a).mpr hcovered)
      exact ⟨id, mem_append_right _ hid, hbelow⟩
  · intro a ha hnew
    by_cases hmiddle : t'.Has a
    · obtain ⟨id, hid, hbelow⟩ := hfirst.added a hmiddle hnew
      exact ⟨id, mem_append_left _ hid, (hbeneath id hid a).mpr hbelow⟩
    · obtain ⟨id, hid, hbelow⟩ := hsecond.added a ha hmiddle
      exact ⟨id, mem_append_right _ hid, hbelow⟩
  · exact fun h => hsecond.bare (hfirst.bare h)

/-! ## A node that takes its children -/

/-- A node is about to hold what has been put together from the parts `inner` in the tree `t'`,
which has been made from `t` by giving the node a slot if it had none.  The node is new, or a part
of its own. -/
structure Holder (t t' : Tree) (id : NodeId) (roles : List Role) (inner parts : List Part) :
    Prop where
  keeps : t.Keeps t'
  frame : ∀ a, t.Has a → a ≠ id → t'.node a = t.node a
  slot : t'.HasSlot id
  covers : ∀ part ∈ inner, ∀ a, part.Covers t' a ↔ part.Covers t a
  free : ∀ part ∈ inner, ¬part.Covers t' id
  outer : ∀ part ∈ inner, part ∈ parts
  split : ∀ part ∈ parts, part ∈ inner ∨ part = .single id
  self : t.Has id → .single id ∈ parts ∧ t.HasSlot id
  same : t.Has id → roles = t.roles id
  layout : ¬t.Has id → roles = (t'.kind id).layout.map Prod.fst
  only : ∀ a, t'.Has a → t.Has a ∨ a = id
  bare : t.Bare → t'.Bare

section

variable {roles : List Role} (h : Holder t t' id roles inner parts)
  (hsown : Sown t' u inner (allKids kids))

include h hsown

theorem node_holder : u.node id = t'.node id :=
  hsown.frame id h.slot.has h.free

theorem children_hold :
    (u.update id fun node => { node with kids }).children id = allKids kids := by
  simp only [children, node_update_self (hsown.keeps.has h.slot.has), Node.children]

theorem not_beneath_held (hc : c ∈ allKids kids) : ¬u.Beneath c id := by
  intro hbelow
  obtain ⟨part, hpart, hcovered⟩ := hsown.region c hc id hbelow h.slot.has
  exact h.free part hpart hcovered

theorem node_held (hc : c ∈ allKids kids) (hbelow : u.Beneath c a) :
    (u.update id fun node => { node with kids }).node a = u.node a := by
  apply node_update_ne
  intro heq
  exact not_beneath_held h hsown hc (heq ▸ hbelow)

theorem beneath_held (hc : c ∈ allKids kids) :
    (u.update id fun node => { node with kids }).Beneath c a ↔ u.Beneath c a :=
  beneath_iff_of_same_nodes fun _ => node_held h hsown hc

theorem hold (hroles : kids.map Prod.fst = roles) :
    Sown t (u.update id fun node => { node with kids }) parts [id] := by
  have hnode := node_holder h hsown
  have hhas : u.Has id := hsown.keeps.has h.slot.has
  have hchildren := children_hold h hsown
  constructor
  · refine (h.keeps.trans hsown.keeps).update (fun _ => rfl) ?_ (fun _ => rfl) fun _ => rfl
    intro hold
    rw [hnode, hroles]
    exact (h.same hold).trans (h.keeps.roles_eq id hold).symm
  · intro a ha hnew
    by_cases heq : a = id
    · subst heq
      simp only [Laid, Tree.roles, kind, shape, node_update_self hhas, hnode]
      exact hroles.trans (h.layout hnew)
    · have hu : u.Laid a := by
        apply hsown.fresh a (by simpa using ha)
        intro hmiddle
        exact (h.only a hmiddle).elim hnew heq
      simpa only [Laid, Tree.roles, kind, shape, node_update_ne u heq] using hu
  · intro a ha huncovered
    have hne : a ≠ id := by
      intro heq
      subst heq
      exact huncovered _ (h.self ha).1 ⟨rfl, (h.self ha).2⟩
    rw [node_update_ne u hne, hsown.frame a (h.keeps.has ha), h.frame a ha hne]
    intro part hpart hcovered
    exact huncovered part (h.outer part hpart) ((h.covers part hpart a).mp hcovered)
  · intro other hother
    rw [mem_singleton.mp hother]
    refine .intro (by simpa using hhas) ?_ ?_
    · rw [hchildren]
      refine hsown.apart.imp_of_mem ?_
      intro x y hx hy hapart c hxc hyc
      exact hapart c ((beneath_held h hsown hx).mp hxc) ((beneath_held h hsown hy).mp hyc)
    · intro child hchild
      rw [hchildren] at hchild
      exact (hsown.treelike child hchild).transfer (fun a ha => by simpa using ha)
        fun a ha => congrArg Node.children (node_held h hsown hchild ha)
  · intro other hother a hbelow
    rw [mem_singleton.mp hother] at hbelow
    rw [hasSlot_update]
    rcases hbelow.eq_or_child with heq | ⟨child, hchild, hbelow⟩
    · rw [heq]
      exact hsown.keeps.hasSlot h.slot
    · rw [hchildren] at hchild
      exact hsown.slots child hchild a ((beneath_held h hsown hchild).mp hbelow)
  · exact pairwise_singleton _ _
  · intro other hother a hbelow ha
    rw [mem_singleton.mp hother] at hbelow
    rcases hbelow.eq_or_child with heq | ⟨child, hchild, hbelow⟩
    · subst heq
      exact ⟨_, (h.self ha).1, rfl, (h.self ha).2⟩
    · rw [hchildren] at hchild
      rw [beneath_held h hsown hchild] at hbelow
      obtain ⟨part, hpart, hcovered⟩ := hsown.region child hchild a hbelow (h.keeps.has ha)
      exact ⟨part, h.outer part hpart, (h.covers part hpart a).mp hcovered⟩
  · intro part hpart a hcovered
    refine ⟨id, by simp, ?_⟩
    rcases h.split part hpart with hpart | heq
    · obtain ⟨child, hchild, hbelow⟩ :=
        hsown.covered part hpart a ((h.covers part hpart a).mpr hcovered)
      refine ((beneath_held h hsown hchild).mpr hbelow).below_child ?_
      rw [hchildren]
      exact hchild
    · subst heq
      rw [hcovered.1]
  · intro a ha hnew
    refine ⟨id, by simp, ?_⟩
    by_cases hmiddle : t'.Has a
    · rw [(h.only a hmiddle).resolve_left hnew]
    · obtain ⟨child, hchild, hbelow⟩ := hsown.added a (by simpa using ha) hmiddle
      refine ((beneath_held h hsown hchild).mpr hbelow).below_child ?_
      rw [hchildren]
      exact hchild
  · exact fun hbare => (hsown.bare (h.bare hbare)).update rfl

end

theorem Holder.of_slot (hready : PartsReady t (.single id :: inner)) (hkeeps : t.Keeps t')
    (hhas : ∀ a, t'.Has a → t.Has a) (hframe : ∀ a, t.Has a → a ≠ id → t'.node a = t.node a) :
    PartsReady t' inner ∧ Holder t t' id (t.roles id) inner (.single id :: inner) := by
  have hslot : t.HasSlot id := hready.ready (.single id) (by simp)
  have hsplit : PartsReady t ([.single id] ++ inner) := hready
  have hself : (Part.single id).Covers t id := ⟨rfl, hslot⟩
  have hinner := hsplit.right.transfer hkeeps (by
    intro top htop a hbelow
    have htopReady : (Part.whole top).Ready t := hsplit.right.ready _ htop
    rw [hframe a (htopReady.has_of_beneath hbelow)]
    intro heq
    subst heq
    exact hsplit.across (by simp) htop hself ⟨hbelow, hslot⟩)
  refine ⟨hinner.1, hkeeps, hframe, hkeeps.hasSlot hslot, hinner.2, ?_,
    fun part hpart => by
    simp [hpart], ?_, fun _ => ⟨by simp, hslot⟩, fun _ => rfl, fun hnew => absurd hslot.has hnew,
    fun a ha => Or.inl (hhas a ha), fun hbare => hbare.of_keeps hkeeps hhas⟩
  · intro part hpart hcovered
    exact hsplit.across (by simp) hpart hself ((hinner.2 part hpart id).mp hcovered)
  · intro part hpart
    exact (mem_cons.mp hpart).symm

theorem Holder.of_new (hready : PartsReady t parts) (node : Node)
    (hbare : t.Bare → node.comments = []) :
    PartsReady (t.pushNode node).2 parts ∧
      Holder t (t.pushNode node).2 (.slot t.size) (node.shape.kind.layout.map Prod.fst) parts
        parts := by
  have hkeeps := Keeps.pushNode t node
  have hinner := hready.transfer hkeeps (by
    intro top htop a hbelow
    have htop : (Part.whole top).Ready t := hready.ready _ htop
    rw [node_pushNode_old (htop.has_of_beneath hbelow)])
  have hnew : (t.pushNode node).2.node (.slot t.size) = node := node_pushNode_new t _
  refine ⟨hinner.1, hkeeps, fun a ha _ => node_pushNode_old ha _, ?_, hinner.2, ?_, fun _ hpart =>
    hpart, fun _ hpart => Or.inl hpart, fun hhas => absurd hhas t.not_has_slot_size,
    fun hhas => absurd hhas t.not_has_slot_size, ?_, ?_, fun h => h.pushNode (hbare h)⟩
  · exact Nat.lt_of_lt_of_eq (Nat.lt_succ_self _) (size_pushNode t _).symm
  · intro part hpart hcovered
    exact t.not_has_slot_size ((hinner.2 part hpart _).mp hcovered).hasSlot.has
  · intro _
    simp only [kind, shape, hnew]
  · intro a ha
    cases a with
    | slot m =>
      have hm : m < t.size + 1 := Nat.lt_of_lt_of_eq ha (size_pushNode t _)
      rcases Nat.lt_succ_iff_lt_or_eq.mp hm with hlt | heq
      · exact Or.inl hlt
      · exact Or.inr (by rw [heq])
    | loose m => exact Or.inl ha

end Sown

/-! ## Settling -/

theorem giveSlot_of_hasSlot (h : t.HasSlot id) : t.giveSlot id = (id, t) := by
  obtain ⟨n, rfl, _⟩ := h.exists_eq
  rfl

theorem map_fst_settleKids (f : Tree → NodeId → NodeId × Tree) (t : Tree) (kids : Kids NodeId) :
    (settleKids f t kids).1.map Prod.fst = kids.map Prod.fst := by
  induction kids generalizing t with
  | nil => rfl
  | cons entry rest ih =>
    obtain ⟨role, occupants⟩ := entry
    simp [settleKids, ih]

section

variable {depth : Nat}
  (hsettle : ∀ (t : Tree) (id : NodeId), (Part.whole id).Ready t → t.Shallow depth id →
    Sown t (settleWithin depth t id).2 [.whole id] [(settleWithin depth t id).1])

include hsettle

theorem settleAll_sown (t : Tree) (ids : List NodeId) (hready : PartsReady t (ids.map .whole))
    (hshallow : ∀ c ∈ ids, t.Shallow depth c) :
    Sown t (settleAll (settleWithin depth) t ids).2 (ids.map .whole)
      (settleAll (settleWithin depth) t ids).1 := by
  induction ids generalizing t with
  | nil => exact Sown.nil t
  | cons id rest ih =>
    have hsplit : PartsReady t ([.whole id] ++ rest.map .whole) := hready
    have hfirst := hsettle t id (hready.ready _ (by simp)) (hshallow id (by simp))
    have hrest := ih (settleWithin depth t id).2 (hsplit.after hfirst).1 (by
      intro c hc
      have hcReady : (Part.whole c).Ready t := hready.ready _ (by simp [hc])
      apply (hshallow c (by simp [hc])).transfer
      intro a ha
      rw [children, hfirst.frame a (hcReady.has_of_beneath ha)]
      · rfl
      · intro part hpart hcovers
        exact hsplit.across hpart (mem_map_of_mem hc) hcovers ⟨ha, hcovers.hasSlot⟩)
    exact hfirst.append hsplit hrest

theorem settleOccupants_sown (t : Tree) (occupants : Occupants NodeId)
    (hready : PartsReady t (occupants.toList.map .whole))
    (hshallow : ∀ c ∈ occupants.toList, t.Shallow depth c) :
    Sown t (settleOccupants (settleWithin depth) t occupants).2 (occupants.toList.map .whole)
      (settleOccupants (settleWithin depth) t occupants).1.toList := by
  cases occupants with
  | empty => exact Sown.nil t
  | one child =>
    exact hsettle t child (hready.ready _ (by simp [Occupants.toList]))
      (hshallow child (by simp [Occupants.toList]))
  | many children => exact settleAll_sown hsettle t children hready hshallow

theorem settleKids_sown (t : Tree) (kids : Kids NodeId)
    (hready : PartsReady t ((allKids kids).map .whole))
    (hshallow : ∀ c ∈ allKids kids, t.Shallow depth c) :
    Sown t (settleKids (settleWithin depth) t kids).2 ((allKids kids).map .whole)
      (allKids (settleKids (settleWithin depth) t kids).1) := by
  induction kids generalizing t with
  | nil => exact Sown.nil t
  | cons entry rest ih =>
    obtain ⟨role, occupants⟩ := entry
    rw [allKids_cons] at hshallow
    rw [allKids_cons, map_append] at hready
    have hfirst := settleOccupants_sown hsettle t occupants hready.left
      fun c hc => hshallow c (mem_append_left _ hc)
    have hrest := ih (settleOccupants (settleWithin depth) t occupants).2 (hready.after hfirst).1
      (by
      intro c hc
      have hcReady : (Part.whole c).Ready t :=
        hready.ready _ (mem_append_right _ (mem_map_of_mem hc))
      apply (hshallow c (mem_append_right _ hc)).transfer
      intro a ha
      rw [children, hfirst.frame a (hcReady.has_of_beneath ha)]
      · rfl
      · intro part hpart hcovers
        exact hready.across hpart (mem_map_of_mem hc) hcovers ⟨ha, hcovers.hasSlot⟩)
    simpa only [settleKids, allKids_cons, map_append] using hfirst.append hready hrest

end

theorem covers_whole_iff (t : Tree) (id a : NodeId) :
    (Part.whole id).Covers t a ↔
      (a = id ∧ t.HasSlot a) ∨ ∃ part ∈ (t.children id).map Part.whole, part.Covers t a := by
  constructor
  · rintro ⟨hbelow, hslot⟩
    rcases hbelow.eq_or_child with heq | ⟨c, hc, hbelow⟩
    · exact Or.inl ⟨heq, hslot⟩
    · exact Or.inr ⟨_, mem_map_of_mem hc, hbelow, hslot⟩
  · rintro (⟨rfl, hslot⟩ | ⟨part, hpart, hcovers⟩)
    · exact ⟨Beneath.refl, hslot⟩
    · obtain ⟨c, hc, rfl⟩ := mem_map.mp hpart
      exact ⟨hcovers.1.below_child hc, hcovers.2⟩

theorem settleWithin_sown (depth : Nat) (t : Tree) (id : NodeId) (hready : (Part.whole id).Ready t)
    (hshallow : t.Shallow depth id) :
      Sown t (settleWithin depth t id).2 [.whole id] [(settleWithin depth t id).1] := by
  induction depth generalizing t id with
  | zero => exact hshallow.elim
  | succ depth ih =>
    have hchildren := hready.children
    cases id with
    | slot n =>
      have hslot : t.HasSlot (.slot n) := hready.1.has
      have hparts : PartsReady t (.single (.slot n) :: (t.children (.slot n)).map .whole) := by
        refine ⟨?_, pairwise_cons.mpr ⟨?_, hchildren.apart⟩⟩
        · intro part hpart
          rcases mem_cons.mp hpart with rfl | hpart
          · exact hslot
          · exact hchildren.ready part hpart
        · rintro part hpart a ⟨rfl, _⟩ hcovers
          obtain ⟨c, hc, rfl⟩ := mem_map.mp hpart
          exact hready.1.not_beneath_of_child hc hcovers.1
      have hholder := Sown.Holder.of_slot hparts (Keeps.refl t) (fun _ ha => ha) fun _ _ _ => rfl
      have hkids := settleKids_sown ih t (t.node (.slot n)).kids hholder.1 hshallow
      have hsown := Sown.hold hholder.2 hkids (map_fst_settleKids _ _ _)
      refine hsown.congr fun a => ?_
      simp only [mem_cons, not_mem_nil, or_false, exists_eq_left, exists_eq_or_imp,
        covers_whole_iff t (.slot n) a]
      rfl
    | loose n =>
      have hholder := Sown.Holder.of_new hchildren (t.node (.loose n)) fun hbare => hbare _
      have hnode : (t.pushNode (t.node (.loose n))).2.node (.slot t.size) = t.node (.loose n) :=
        node_pushNode_new t _
      have hkids := settleKids_sown ih (t.pushNode (t.node (.loose n))).2 (t.node (.loose n)).kids
        hholder.1 (by
          intro c hc
          apply (hshallow c hc).transfer
          intro a ha
          rw [children, node_pushNode_old (hready.has_of_beneath (ha.below_child hc))]
          rfl)
      have hlaid : (t.node (.loose n)).kids.map Prod.fst =
          (t.node (.loose n)).shape.kind.layout.map Prod.fst :=
        hready.2 (.loose n) Beneath.refl fun hslot => hslot
      have hsown := Sown.hold hholder.2 hkids ((map_fst_settleKids _ _ _).trans hlaid)
      have hgoal : settleWithin (depth + 1) t (.loose n) = (.slot t.size,
          (settleKids (settleWithin depth) (t.pushNode (t.node (.loose n))).2
            (t.node (.loose n)).kids).2.update (.slot t.size) fun node =>
          { node with kids := (settleKids (settleWithin depth) (t.pushNode (t.node (.loose n))).2
            (t.node (.loose n)).kids).1 }) := by
        simp only [settleWithin]
        rw [show t.giveSlot (.loose n) =
          (.slot t.size, (t.pushNode (t.node (.loose n))).2) from rfl]
        simp only [hnode]
      rw [hgoal]
      refine hsown.congr fun a => ?_
      simp only [mem_singleton, exists_eq_left, covers_whole_iff t (.loose n) a]
      constructor
      · exact Or.inr
      · rintro (⟨rfl, hslot⟩ | hcovers)
        · exact hslot.elim
        · exact hcovers

/-! ### Settling what has slots already -/

theorem settleAll_stable (h : ∀ c ∈ ids, f t c = (c, t)) : settleAll f t ids = (ids, t) := by
  induction ids with
  | nil => rfl
  | cons id rest ih =>
    have hrest := ih fun c hc => h c (mem_cons_of_mem _ hc)
    simp only [settleAll, h id mem_cons_self, hrest]

theorem settleOccupants_stable {occupants : Occupants NodeId}
    (h : ∀ c ∈ occupants.toList, f t c = (c, t)) :
    settleOccupants f t occupants = (occupants, t) := by
  cases occupants with
  | empty => rfl
  | one child => simp only [settleOccupants, h child (by simp [Occupants.toList])]
  | many children =>
    have hall : settleAll f t children = (children, t) := settleAll_stable h
    simp only [settleOccupants, hall]

theorem settleKids_stable (h : ∀ c ∈ allKids kids, f t c = (c, t)) :
    settleKids f t kids = (kids, t) := by
  induction kids with
  | nil => rfl
  | cons entry rest ih =>
    obtain ⟨role, occupants⟩ := entry
    rw [allKids_cons] at h
    have hfirst := settleOccupants_stable fun c hc => h c (mem_append_left _ hc)
    have hrest := ih fun c hc => h c (mem_append_right _ hc)
    simp only [settleKids, hfirst, hrest]

theorem settleWithin_stable (hslots : ∀ a, t.Beneath id a → t.HasSlot a) (depth : Nat) :
    settleWithin depth t id = (id, t) := by
  induction depth generalizing id with
  | zero => rfl
  | succ depth ih =>
    have hkids : settleKids (settleWithin depth) t (t.node id).kids = ((t.node id).kids, t) :=
      settleKids_stable fun c hc => ih fun a ha => hslots a (ha.below_child hc)
    simp only [settleWithin, giveSlot_of_hasSlot (hslots id Beneath.refl), hkids]
    rw [update_eq_self rfl]

/-- Nothing happens to a subtree in which every node has a slot. -/
theorem settle_stable (hslots : ∀ a, t.Beneath id a → t.HasSlot a) : t.settle id = (id, t) := by
  unfold settle
  split
  · rfl
  · exact settleWithin_stable hslots _

theorem settleWithin_fst (h : t.HasSlot id) (depth : Nat) : (settleWithin depth t id).1 = id := by
  cases depth with
  | zero => rfl
  | succ depth => simp only [settleWithin, giveSlot_of_hasSlot h]

/-- Settling a subtree gives a slot to every loose node in it and keeps all else. -/
theorem settle_sown (h : (Part.whole id).Ready t) :
    Sown t (t.settle id).2 [.whole id] [(t.settle id).1] := by
  have hsown := settleWithin_sown _ t id h h.1.shallow
  by_cases hempty : t.loose.isEmpty = true
  · -- Without loose nodes nothing is settled, which comes to the same.
    have hslots : ∀ a, t.Beneath id a → t.HasSlot a := by
      intro a ha
      have hhas := h.has_of_beneath ha
      cases a with
      | slot n => exact hhas
      | loose n =>
        rw [Array.isEmpty_iff] at hempty
        simp [Has, hempty] at hhas
    rw [settleWithin_stable hslots] at hsown
    rw [settle_stable hslots]
    exact hsown
  · rw [settle, if_neg hempty]
    exact hsown

theorem settle_fst (h : t.HasSlot id) : (t.settle id).1 = id := by
  unfold settle
  split
  · rfl
  · exact settleWithin_fst h _

end Tree

end UnitySharp
