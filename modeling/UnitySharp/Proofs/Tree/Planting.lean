import UnitySharp.Proofs.Tree.Sown

/-!
# Planting drafts

Planting puts the parts of a draft together with new nodes.  If the parts are ready, the outcome is
intact (`plant_planted`).  The proof follows the recursion of `plant`.
-/

namespace UnitySharp

open List

/-! ## Parts and roles of drafts -/

mutual

def Draft.parts : Draft → List Part
  | .kept id => [.whole id]
  | .amended id kids => .single id :: partsOfKids kids
  | .fresh _ _ kids => partsOfKids kids
  | .typed _ draft => draft.parts

def partsOfKids : List (Role × Occupants Draft) → List Part
  | [] => []
  | (_, occupants) :: rest => partsOfOccupants occupants ++ partsOfKids rest

def partsOfOccupants : Occupants Draft → List Part
  | .empty => []
  | .one draft => draft.parts
  | .many drafts => partsOfAll drafts

def partsOfAll : List Draft → List Part
  | [] => []
  | draft :: rest => draft.parts ++ partsOfAll rest

end

mutual

/-- Every new node of a draft has the roles of its kind, and every amended one those it has in the
tree. -/
def Draft.Laid (t : Tree) : Draft → Prop
  | .kept _ => True
  | .amended id kids => t.Has id ∧ kids.map Prod.fst = t.roles id ∧ KidsLaid t kids
  | .fresh shape _ kids => kids.map Prod.fst = shape.kind.layout.map Prod.fst ∧ KidsLaid t kids
  | .typed _ draft => draft.Laid t

def KidsLaid (t : Tree) : List (Role × Occupants Draft) → Prop
  | [] => True
  | (_, occupants) :: rest => OccupantsLaid t occupants ∧ KidsLaid t rest

def OccupantsLaid (t : Tree) : Occupants Draft → Prop
  | .empty => True
  | .one draft => draft.Laid t
  | .many drafts => AllLaid t drafts

def AllLaid (t : Tree) : List Draft → Prop
  | [] => True
  | draft :: rest => draft.Laid t ∧ AllLaid t rest

end

theorem allLaid_iff (t : Tree) (drafts : List Draft) :
    AllLaid t drafts ↔ ∀ draft ∈ drafts, draft.Laid t := by
  induction drafts with
  | nil => simp [AllLaid]
  | cons draft rest ih => simp [AllLaid, ih]

theorem allLaid_map_kept (t : Tree) (ids : List NodeId) : AllLaid t (ids.map .kept) := by
  simp [allLaid_iff, Draft.Laid]

mutual

theorem Draft.Laid.transfer {t u : Tree} (hkeeps : t.Keeps u) :
    (draft : Draft) → draft.Laid t → draft.Laid u
  | .kept _, _ => trivial
  | .amended id kids, ⟨hhas, hroles, hkids⟩ =>
    ⟨hkeeps.has hhas, hroles.trans (hkeeps.roles_eq id hhas).symm,
      KidsLaid.transfer hkeeps kids hkids⟩
  | .fresh _ _ kids, ⟨hroles, hkids⟩ => ⟨hroles, KidsLaid.transfer hkeeps kids hkids⟩
  | .typed _ draft, h => Draft.Laid.transfer hkeeps draft h

theorem KidsLaid.transfer {t u : Tree} (hkeeps : t.Keeps u) :
    (kids : List (Role × Occupants Draft)) → KidsLaid t kids → KidsLaid u kids
  | [], _ => trivial
  | (_, occupants) :: rest, ⟨hfirst, hrest⟩ =>
    ⟨OccupantsLaid.transfer hkeeps occupants hfirst, KidsLaid.transfer hkeeps rest hrest⟩

theorem OccupantsLaid.transfer {t u : Tree} (hkeeps : t.Keeps u) :
    (occupants : Occupants Draft) → OccupantsLaid t occupants → OccupantsLaid u occupants
  | .empty, _ => trivial
  | .one draft, h => Draft.Laid.transfer hkeeps draft h
  | .many drafts, h => AllLaid.transfer hkeeps drafts h

theorem AllLaid.transfer {t u : Tree} (hkeeps : t.Keeps u) :
    (drafts : List Draft) → AllLaid t drafts → AllLaid u drafts
  | [], _ => trivial
  | draft :: rest, ⟨hfirst, hrest⟩ =>
    ⟨Draft.Laid.transfer hkeeps draft hfirst, AllLaid.transfer hkeeps rest hrest⟩

end

theorem map_fst_plantKids (t : Tree) (p : NodeId) (kids : List (Role × Occupants Draft)) :
    (t.plantKids p kids).1.map Prod.fst = kids.map Prod.fst := by
  induction kids generalizing t with
  | nil => rfl
  | cons entry rest ih =>
    obtain ⟨role, occupants⟩ := entry
    simp [Tree.plantKids, ih]

theorem partsOfAll_eq_flatMap (drafts : List Draft) :
    partsOfAll drafts = drafts.flatMap Draft.parts := by
  induction drafts with
  | nil => rfl
  | cons draft rest ih => simp [partsOfAll, ih]

theorem partsOfAll_append (first second : List Draft) :
    partsOfAll (first ++ second) = partsOfAll first ++ partsOfAll second := by
  simp [partsOfAll_eq_flatMap]

theorem partsOfAll_map_kept (ids : List NodeId) : partsOfAll (ids.map .kept) = ids.map .whole := by
  induction ids with
  | nil => rfl
  | cons id rest ih => simp [partsOfAll, Draft.parts, ih]

variable {t t' u : Tree} {parts : List Part} {a b c id p : NodeId} {parent : Option NodeId}
  {ids : List NodeId}

namespace Tree

variable {D : NodeId → Prop} {depth : Nat} {kids : List (Role × Occupants Draft)}

/-! ## Links -/

structure Relinked (D : NodeId → Prop) (t t' : Tree) : Prop where
  keeps : t.Keeps t'
  has : ∀ a, t'.Has a → t.Has a
  node : ∀ a, ∃ up, t'.node a = { t.node a with parent := up } ∧ (D a ∨ up = t.parent a)

namespace Relinked

variable {E : NodeId → Prop}

theorem refl (D : NodeId → Prop) (t : Tree) : Relinked D t t where
  keeps := Keeps.refl t
  has := fun _ ha => ha
  node := fun _ => ⟨_, rfl, Or.inr rfl⟩

theorem trans (hst : Relinked D t t') (htu : Relinked D t' u) : Relinked D t u where
  keeps := hst.keeps.trans htu.keeps
  has := fun a ha => hst.has a (htu.has a ha)
  node := by
    intro a
    obtain ⟨up, hnode, hup⟩ := hst.node a
    obtain ⟨up', hnode', hup'⟩ := htu.node a
    refine ⟨up', by rw [hnode', hnode], hup'.elim Or.inl fun heq => ?_⟩
    rw [parent, hnode] at heq
    exact heq ▸ hup

theorem mono (h : Relinked D t t') (hsub : ∀ a, D a → E a) : Relinked E t t' where
  keeps := h.keeps
  has := h.has
  node := fun a => by
    obtain ⟨up, hnode, hup⟩ := h.node a
    exact ⟨up, hnode, hup.imp_left (hsub a)⟩

theorem setParent (t : Tree) (id : NodeId) (up : Option NodeId) :
    Relinked (· = id) t (t.setParent id up) where
  keeps := Keeps.setParent t id up
  has := fun a ha => (has_setParent t id a up).mp ha
  node := fun a => by
    by_cases heq : a = id
    · subst heq
      by_cases hhas : t.Has a
      · exact ⟨up, node_update_self hhas _, Or.inl rfl⟩
      · refine ⟨none, ?_, Or.inl rfl⟩
        rw [node_of_not_has hhas, node_of_not_has fun ha => hhas ((has_setParent t a a up).mp ha)]
        rfl
    · exact ⟨_, node_setParent_ne t heq up, Or.inr rfl⟩

theorem kids_eq (h : Relinked D t t') (a : NodeId) : (t'.node a).kids = (t.node a).kids := by
  obtain ⟨up, hnode, _⟩ := h.node a
  rw [hnode]

theorem children_eq (h : Relinked D t t') (a : NodeId) : t'.children a = t.children a :=
  congrArg allKids (h.kids_eq a)

theorem beneath (h : Relinked D t t') : t'.Beneath a b ↔ t.Beneath a b :=
  ⟨fun hab => hab.of_transfer fun c _ => h.children_eq c, fun hab => hab.transfer fun c _ =>
    h.children_eq c⟩

theorem frame (h : Relinked D t t') (ha : ¬D a) : t'.node a = t.node a := by
  obtain ⟨up, hnode, hup⟩ := h.node a
  rw [hnode, hup.resolve_left ha]
  rfl

theorem treelike (h : Relinked D t t') (hid : t.Treelike id) : t'.Treelike id :=
  hid.transfer (fun _ => h.keeps.has) fun a _ => h.children_eq a

theorem apart (h : Relinked D t t') (hab : t.Apart a b) : t'.Apart a b :=
  fun c hac hbc => hab c (h.beneath.mp hac) (h.beneath.mp hbc)

end Relinked

/-- A subtree is ready to be linked to its holders: it is treelike, of slots, and not too deep. -/
structure Linkable (t : Tree) (depth : Nat) (id : NodeId) : Prop where
  treelike : t.Treelike id
  slots : ∀ a, t.Beneath id a → t.HasSlot a
  shallow : t.Shallow depth id

theorem Linkable.relinked (h : t.Linkable depth id) (hlinks : Relinked D t u) :
    u.Linkable depth id where
  treelike := hlinks.treelike h.treelike
  slots := fun a ha => hlinks.keeps.hasSlot (h.slots a (hlinks.beneath.mp ha))
  shallow := h.shallow.transfer fun a _ => hlinks.children_eq a

theorem Linkable.child (h : t.Linkable (depth + 1) id) (hc : c ∈ t.children id) :
    t.Linkable depth c where
  treelike := h.treelike.child hc
  slots := fun a ha => h.slots a (ha.below_child hc)
  shallow := h.shallow c hc

theorem foldl_adoptWithin
    (hadopt : ∀ (t : Tree) (c : NodeId), t.Linkable depth c →
      Relinked (t.Beneath c) t (adoptWithin depth t (some id) c) ∧
        (adoptWithin depth t (some id) c).Intact c ∧
      (adoptWithin depth t (some id) c).parent c = some id)
    (t : Tree) (cs : List NodeId) (hcs : ∀ c ∈ cs, t.Linkable depth c)
    (hapart : cs.Pairwise t.Apart) :
    Relinked (fun a => ∃ c ∈ cs, t.Beneath c a) t
      (cs.foldl (fun t c => adoptWithin depth t (some id) c) t) ∧ ∀ c ∈ cs,
        (cs.foldl (fun t c => adoptWithin depth t (some id) c) t).Intact c ∧
        (cs.foldl (fun t c => adoptWithin depth t (some id) c) t).parent c = some id := by
  induction cs generalizing t with
  | nil => exact ⟨Relinked.refl _ t, by simp⟩
  | cons c rest ih =>
    obtain ⟨hacross, hapart⟩ := pairwise_cons.mp hapart
    obtain ⟨hlinks, hintact, hparent⟩ := hadopt t c (hcs c (by simp))
    obtain ⟨hlater, hrest⟩ := ih (adoptWithin depth t (some id) c)
      (fun d hd => (hcs d (by simp [hd])).relinked hlinks) (hapart.imp hlinks.apart)
    rw [foldl_cons]
    -- What has been adopted first is apart from the rest, and hence stays as it is.
    have hsame : ∀ a, (adoptWithin depth t (some id) c).Beneath c a →
        (rest.foldl (fun t c => adoptWithin depth t (some id) c)
          (adoptWithin depth t (some id) c)).node a = (adoptWithin depth t (some id) c).node a := by
      intro a ha
      apply hlater.frame
      rintro ⟨d, hd, hda⟩
      exact hacross d hd a (hlinks.beneath.mp ha) (hlinks.beneath.mp hda)
    refine ⟨?_, ?_⟩
    · refine (hlinks.mono fun a ha => ⟨c, by simp, ha⟩).trans (hlater.mono ?_)
      rintro a ⟨d, hd, hda⟩
      exact ⟨d, by simp [hd], hlinks.beneath.mp hda⟩
    · intro d hd
      rcases mem_cons.mp hd with rfl | hd
      · refine ⟨hintact.of_same_nodes (fun _ => hlater.keeps.hasSlot) hsame, ?_⟩
        rw [parent, hsame d Beneath.refl]
        exact hparent
      · exact hrest d hd

theorem adoptWithin_links (depth : Nat) (t : Tree) (parent : Option NodeId) (id : NodeId)
    (h : t.Linkable depth id) :
    Relinked (t.Beneath id) t (adoptWithin depth t parent id) ∧
      (adoptWithin depth t parent id).Intact id ∧
        (adoptWithin depth t parent id).parent id = parent := by
  induction depth generalizing t parent id with
  | zero => exact h.shallow.elim
  | succ depth ih =>
    have hself := Relinked.setParent t id parent
    have hkids := foldl_adoptWithin (fun t c hc => ih t (some id) c hc) (t.setParent id parent)
      (t.children id) (fun c hc => (h.child hc).relinked hself) (h.treelike.apart.imp hself.apart)
    rw [adoptWithin]
    obtain ⟨hlinks, hbelow⟩ := hkids
    have hfree : ¬∃ c ∈ t.children id, (t.setParent id parent).Beneath c id := by
      rintro ⟨c, hc, hcycle⟩
      exact h.treelike.not_beneath_of_child hc (hself.beneath.mp hcycle)
    have hchildren := (hlinks.children_eq id).trans (children_setParent t id id parent)
    refine ⟨?_, ?_, ?_⟩
    · refine (hself.mono ?_).trans (hlinks.mono ?_)
      · rintro a rfl
        exact Beneath.refl
      · rintro a ⟨c, hc, hca⟩
        exact (hself.beneath.mp hca).below_child hc
    · refine .intro ?_ ?_ ?_ ?_
      · exact (hself.keeps.trans hlinks.keeps).hasSlot (h.slots id Beneath.refl)
      · rw [hchildren]
        exact nodup_of_apart h.treelike.apart
      · intro c hc
        rw [hchildren] at hc
        exact (hbelow c hc).2
      · intro c hc
        rw [hchildren] at hc
        exact (hbelow c hc).1
    · rw [Tree.parent, hlinks.frame hfree]
      exact parent_setParent_self h.treelike.has parent

theorem adopt_links (h : t.Treelike id) (hslots : ∀ a, t.Beneath id a → t.HasSlot a)
    (parent : Option NodeId) :
    Relinked (t.Beneath id) t (t.adopt parent id) ∧
      (t.adopt parent id).Intact id ∧ (t.adopt parent id).parent id = parent :=
  adoptWithin_links _ t parent id ⟨h, hslots, h.shallow_slots hslots⟩

/-! ## What has been planted -/

/-- Planting drafts with some parts under a parent has led from one tree to the next: the parts have
been put together, the planted nodes are intact and hang under the parent, and a subtree of slots
among the parts has kept its children. -/
structure Planted (t t' : Tree) (parent : Option NodeId) (parts : List Part) (ids : List NodeId) :
    Prop extends Sown t t' parts ids where
  intact : ∀ id ∈ ids, t'.Intact id
  linked : ∀ id ∈ ids, t'.parent id = parent
  wholes : ∀ top, .whole top ∈ parts → (∀ a, t.Beneath top a → t.HasSlot a) → ∀ a, t.Beneath top a →
    (t'.node a).kids = (t.node a).kids

theorem Sown.relinked (h : Sown t t' parts ids) (hlinks : Relinked D t' u)
    (hD : ∀ a, D a → ∃ id ∈ ids, t'.Beneath id a) :
    Sown t u parts ids where
  keeps := h.keeps.trans hlinks.keeps
  fresh := fun a ha hnew => hlinks.keeps.laid (hlinks.has a ha) (h.fresh a (hlinks.has a ha) hnew)
  frame := fun a ha huncovered => by
    rw [hlinks.frame, h.frame a ha huncovered]
    intro hdisturbed
    obtain ⟨id, hid, hbelow⟩ := hD a hdisturbed
    obtain ⟨part, hpart, hcovers⟩ := h.region id hid a hbelow ha
    exact huncovered part hpart hcovers
  treelike := fun id hid => hlinks.treelike (h.treelike id hid)
  slots := fun id hid a hbelow => hlinks.keeps.hasSlot (h.slots id hid a (hlinks.beneath.mp hbelow))
  apart := h.apart.imp hlinks.apart
  region := fun id hid a hbelow => h.region id hid a (hlinks.beneath.mp hbelow)
  covered := fun part hpart a hcovers => by
    obtain ⟨id, hid, hbelow⟩ := h.covered part hpart a hcovers
    exact ⟨id, hid, hlinks.beneath.mpr hbelow⟩
  added := fun a ha hnew => by
    obtain ⟨id, hid, hbelow⟩ := h.added a (hlinks.has a ha) hnew
    exact ⟨id, hid, hlinks.beneath.mpr hbelow⟩
  bare := fun hbare => (h.bare hbare).of_keeps hlinks.keeps hlinks.has

namespace Planted

theorem nil (t : Tree) (parent : Option NodeId) : Planted t t parent [] [] where
  toSown := Sown.nil t
  intact := by simp
  linked := by simp
  wholes := by simp

theorem append {first second : List Part} {others : List NodeId}
    (hready : PartsReady t (first ++ second)) (hfirst : Planted t t' parent first ids)
    (hsecond : Planted t' u parent second others) :
    Planted t u parent (first ++ second) (ids ++ others) := by
  have hsame : ∀ id ∈ ids, ∀ a, t'.Beneath id a → u.node a = t'.node a :=
    fun id hid a => hready.same_after hfirst.toSown hsecond.toSown hid
  refine ⟨hfirst.toSown.append hready hsecond.toSown, ?_, ?_, ?_⟩
  · intro id hid
    rcases mem_append.mp hid with hid | hid
    · exact (hfirst.intact id hid).of_same_nodes (fun _ => hsecond.keeps.hasSlot) (hsame id hid)
    · exact hsecond.intact id hid
  · intro id hid
    rcases mem_append.mp hid with hid | hid
    · rw [← hfirst.linked id hid]
      simp only [Tree.parent, hsame id hid id Beneath.refl]
    · exact hsecond.linked id hid
  · intro top htop hslots a ha
    rcases mem_append.mp htop with htop | htop
    · obtain ⟨id, hid, hbelow⟩ := hfirst.covered _ htop a ⟨ha, hslots a ha⟩
      rw [hsame id hid a hbelow]
      exact hfirst.wholes top htop hslots a ha
    · have hbefore : ∀ b, t.Beneath top b → t'.node b = t.node b := by
        intro b hb
        refine hfirst.frame b (hslots b hb).has fun part hpart hcovers => ?_
        exact hready.across hpart htop hcovers ⟨hb, hcovers.hasSlot⟩
      have hbelow : ∀ b, t'.Beneath top b ↔ t.Beneath top b :=
        fun b => beneath_iff_of_same_nodes hbefore
      rw [hsecond.wholes top htop (fun b hb => hfirst.keeps.hasSlot (hslots b ((hbelow b).mp hb))) a
        ((hbelow a).mpr ha), hbefore a ha]

theorem hold {inner : List Part} {roles : List Role} {kids : Kids NodeId}
    (h : Sown.Holder t t' id roles inner parts) (hparent : t'.parent id = parent)
    (hplanted : Planted t' u (some id) inner (allKids kids)) (hroles : kids.map Prod.fst = roles) :
    Planted t (u.update id fun node => { node with kids }) parent parts [id] := by
  have hsown := hplanted.toSown
  refine ⟨Sown.hold h hsown hroles, ?_, ?_, ?_⟩
  · intro other hother
    rw [mem_singleton.mp hother]
    refine .intro (by simpa using hplanted.keeps.hasSlot h.slot) ?_ ?_ ?_
    · rw [Sown.children_hold h hsown]
      exact hplanted.nodup
    · intro child hchild
      rw [Sown.children_hold h hsown] at hchild
      rw [parent_update_kids]
      exact hplanted.linked child hchild
    · intro child hchild
      rw [Sown.children_hold h hsown] at hchild
      exact (hplanted.intact child hchild).of_same_nodes (fun a ha => by simpa using ha)
        fun a ha => Sown.node_held h hsown hchild ha
  · intro other hother
    rw [mem_singleton.mp hother, parent_update_kids]
    simpa only [Tree.parent, Sown.node_holder h hsown] using hparent
  · intro top htop hslots a ha
    have hinner : Part.whole top ∈ inner := (h.split _ htop).resolve_right (by simp)
    have hne : ∀ b, t.Beneath top b → b ≠ id := by
      rintro b hb rfl
      exact h.free _ hinner ((h.covers _ hinner b).mpr ⟨hb, hslots b hb⟩)
    have hbefore : ∀ b, t.Beneath top b → t'.node b = t.node b := fun b hb =>
      h.frame b (hslots b hb).has (hne b hb)
    have hbelow : ∀ b, t'.Beneath top b ↔ t.Beneath top b :=
      fun b => beneath_iff_of_same_nodes hbefore
    rw [node_update_ne u (hne a ha), hplanted.wholes top hinner
      (fun b hb => h.keeps.hasSlot (hslots b ((hbelow b).mp hb))) a ((hbelow a).mpr ha),
        hbefore a ha]

theorem setType (h : Planted t u parent parts [id]) (type : Option Ty) :
    Planted t (u.setType id type) parent parts [id] := by
  have hkids : ∀ a, (u.setType id type).children a = u.children a :=
    fun a => children_setType u id a type
  have hparent : ∀ a, (u.setType id type).parent a = u.parent a :=
    fun a => parent_setType u id a type
  have hbeneath : ∀ a b, (u.setType id type).Beneath a b ↔ u.Beneath a b := fun a b =>
    ⟨fun hbelow => hbelow.of_transfer fun c _ => hkids c, fun hbelow => hbelow.transfer fun c _ =>
      hkids c⟩
  have hkeeps := Keeps.setType u id type
  have hhas : ∀ a, (u.setType id type).Has a → u.Has a := fun a ha => (has_update u id a _).mp ha
  refine ⟨⟨h.keeps.trans hkeeps, ?_, ?_, ?_, ?_, pairwise_singleton _ _, ?_, ?_, ?_,
    fun hbare => (h.bare hbare).of_keeps hkeeps hhas⟩, ?_, ?_, ?_⟩
  · exact fun a ha hnew => hkeeps.laid (hhas a ha) (h.fresh a (hhas a ha) hnew)
  · intro a ha huncovered
    have hne : a ≠ id := by
      intro heq
      subst heq
      obtain ⟨part, hpart, hcovered⟩ := h.region a (by simp) a Beneath.refl ha
      exact huncovered part hpart hcovered
    rw [Tree.setType, node_update_ne u hne, h.frame a ha huncovered]
  · exact fun other hother => (h.treelike other hother).transfer (fun _ => hkeeps.has) fun a _ =>
      hkids a
  · exact fun other hother a hbelow =>
      hkeeps.hasSlot (h.slots other hother a ((hbeneath other a).mp hbelow))
  · exact fun other hother a hbelow => h.region other hother a ((hbeneath other a).mp hbelow)
  · intro part hpart a hcovered
    obtain ⟨other, hother, hbelow⟩ := h.covered part hpart a hcovered
    exact ⟨other, hother, (hbeneath other a).mpr hbelow⟩
  · intro a ha hnew
    obtain ⟨other, hother, hbelow⟩ := h.added a (hhas a ha) hnew
    exact ⟨other, hother, (hbeneath other a).mpr hbelow⟩
  · exact fun other hother => (h.intact other hother).transfer (fun _ => hkeeps.hasSlot)
      (fun a _ => hkids a) fun a _ => hparent a
  · intro other hother
    rw [hparent]
    exact h.linked other hother
  · intro top htop hslots a ha
    rw [← h.wholes top htop hslots a ha]
    exact proj_node_update (g := Node.kids) (kids_withType _ type) a

end Planted

/-! ## Planting -/

theorem plant_kept (h : (Part.whole id).Ready t) (parent : Option NodeId) :
    Planted t (plant t parent (.kept id)).2 parent [.whole id] [(plant t parent (.kept id)).1] := by
  have hsown := settle_sown h
  have hid := hsown.treelike (t.settle id).1 (by simp)
  have hslots := hsown.slots (t.settle id).1 (by simp)
  obtain ⟨hlinks, hintact, hparent⟩ := adopt_links hid hslots parent
  simp only [plant]
  refine ⟨hsown.relinked hlinks fun a ha => ⟨_, by simp, ha⟩, ?_, ?_, ?_⟩
  · intro other hother
    rw [mem_singleton.mp hother]
    exact hintact
  · intro other hother
    rw [mem_singleton.mp hother]
    exact hparent
  · intro top htop hall a ha
    have heq : top = id := by simpa using htop
    subst heq
    rw [hlinks.kids_eq, settle_stable hall]

theorem plant_kept_fst (h : t.HasSlot id) (parent : Option NodeId) :
    (plant t parent (.kept id)).1 = id := by
  simp only [plant, settle_fst h]

theorem planted_amended {kids : List (Role × Occupants Draft)} (parent : Option NodeId)
    (hready : PartsReady t (.single id :: partsOfKids kids))
    (hroles : kids.map Prod.fst = t.roles id)
    (hkids : PartsReady (t.setParent id parent) (partsOfKids kids) →
      Planted (t.setParent id parent) (plantKids (t.setParent id parent) id kids).2 (some id)
        (partsOfKids kids) (allKids (plantKids (t.setParent id parent) id kids).1)) :
    (plant t parent (.amended id kids)).1 = id ∧
      Planted t (plant t parent (.amended id kids)).2 parent (.single id :: partsOfKids kids)
    [id] := by
  have hslot : t.HasSlot id := hready.ready (.single id) (by simp)
  have hholder := Sown.Holder.of_slot hready (Keeps.setParent t id parent)
    (fun a ha => (has_setParent t id a parent).mp ha) fun a _ hne => node_setParent_ne t hne parent
  have hplant : plant t parent (.amended id kids) =
      (id, (plantKids (t.setParent id parent) id kids).2.update id
        fun node => { node with kids := (plantKids (t.setParent id parent) id kids).1 }) := by
    simp only [plant, giveSlot_of_hasSlot hslot]
  rw [hplant]
  exact ⟨rfl, Planted.hold hholder.2 (parent_setParent_self hslot.has parent) (hkids hholder.1)
    ((map_fst_plantKids _ _ _).trans hroles)⟩

theorem planted_fresh {kids : List (Role × Occupants Draft)} {shape : Shape}
    (position : Option Position) (parent : Option NodeId) (hready : PartsReady t (partsOfKids kids))
    (hroles : kids.map Prod.fst = shape.kind.layout.map Prod.fst)
    (hkids : PartsReady (t.pushNode (bareNode shape position parent)).2 (partsOfKids kids) →
      Planted (t.pushNode (bareNode shape position parent)).2
        (plantKids (t.pushNode (bareNode shape position parent)).2 (.slot t.size) kids).2
        (some (.slot t.size)) (partsOfKids kids)
        (allKids (plantKids (t.pushNode (bareNode shape position parent)).2 (.slot t.size)
          kids).1)) :
    (plant t parent (.fresh shape position kids)).1 = .slot t.size ∧
      Planted t (plant t parent (.fresh shape position kids)).2 parent (partsOfKids kids)
        [.slot t.size] := by
  have hholder := Sown.Holder.of_new hready (bareNode shape position parent) fun _ => rfl
  have hplant : plant t parent (.fresh shape position kids) =
      (.slot t.size,
        (plantKids (t.pushNode (bareNode shape position parent)).2 (.slot t.size) kids).2.update
          (.slot t.size) fun node => { node with
            kids := (plantKids (t.pushNode (bareNode shape position parent)).2 (.slot t.size)
              kids).1 }) := by
    simp only [plant]
    rfl
  have hnew : (t.pushNode (bareNode shape position parent)).2.node (.slot t.size) =
      bareNode shape position parent := node_pushNode_new t _
  rw [hplant]
  exact ⟨rfl, Planted.hold hholder.2 (congrArg Node.parent hnew) (hkids hholder.1)
    ((map_fst_plantKids _ _ _).trans hroles)⟩

mutual

/-- Planting a draft whose parts are ready yields an intact subtree of the parts and new nodes. -/
theorem plant_planted (t : Tree) (parent : Option NodeId) :
    (draft : Draft) → PartsReady t draft.parts → draft.Laid t →
      Planted t (plant t parent draft).2 parent draft.parts [(plant t parent draft).1]
  | .kept id, hready, _ => by
      exact plant_kept (hready.ready (.whole id) (by simp [Draft.parts])) parent
  | .amended id kids, hready, hlaid => by
      have hamended := planted_amended parent hready hlaid.2.1 fun hinner =>
        plantKids_planted (t.setParent id parent) id kids hinner
          (KidsLaid.transfer (Keeps.setParent t id parent) kids hlaid.2.2)
      rw [hamended.1]
      exact hamended.2
  | .fresh shape position kids, hready, hlaid => by
      have hfresh := planted_fresh position parent hready hlaid.1 fun hinner =>
          plantKids_planted (t.pushNode (bareNode shape position parent)).2 (.slot t.size) kids
            hinner (KidsLaid.transfer (Keeps.pushNode t _) kids hlaid.2)
      rw [hfresh.1]
      exact hfresh.2
  | .typed type draft, hready, hlaid => by
      have hplanted := plant_planted t parent draft hready hlaid
      simpa only [plant, Draft.parts] using hplanted.setType type

theorem plantKids_planted (t : Tree) (p : NodeId) :
    (kids : List (Role × Occupants Draft)) → PartsReady t (partsOfKids kids) → KidsLaid t kids →
      Planted t (plantKids t p kids).2 (some p) (partsOfKids kids) (allKids (plantKids t p kids).1)
  | [], _, _ => by
      simpa only [plantKids, partsOfKids, allKids_nil] using Planted.nil t (some p)
  | (role, occupants) :: rest, hready, hlaid => by
      have hfirst := plantOccupants_planted t p occupants hready.left hlaid.1
      have hrest :=
        plantKids_planted (plantOccupants t p occupants).2 p rest (hready.after hfirst.toSown).1
        (KidsLaid.transfer hfirst.keeps rest hlaid.2)
      simpa only [plantKids, partsOfKids, allKids_cons] using hfirst.append hready hrest

theorem plantOccupants_planted (t : Tree) (p : NodeId) :
    (occupants : Occupants Draft) → PartsReady t (partsOfOccupants occupants) →
      OccupantsLaid t occupants →
      Planted t (plantOccupants t p occupants).2 (some p) (partsOfOccupants occupants)
        (plantOccupants t p occupants).1.toList
  | .empty, _, _ => by
      simpa only [plantOccupants, partsOfOccupants, Occupants.toList] using Planted.nil t (some p)
  | .one draft, hready, hlaid => by
      simpa only [plantOccupants, partsOfOccupants, Occupants.toList] using
        plant_planted t (some p) draft hready hlaid
  | .many drafts, hready, hlaid => by
      simpa only [plantOccupants, partsOfOccupants, Occupants.toList] using
        plantAll_planted t p drafts hready hlaid

/-- Planting drafts sets the parents of what they keep, adds their new nodes, and leaves all else
alone. -/
theorem plantAll_planted (t : Tree) (p : NodeId) :
    (drafts : List Draft) → PartsReady t (partsOfAll drafts) → AllLaid t drafts →
      Planted t (plantAll t p drafts).2 (some p) (partsOfAll drafts) (plantAll t p drafts).1
  | [], _, _ => by
      simpa only [plantAll, partsOfAll] using Planted.nil t (some p)
  | draft :: rest, hready, hlaid => by
      have hfirst := plant_planted t (some p) draft hready.left hlaid.1
      have hrest :=
        plantAll_planted (plant t (some p) draft).2 p rest (hready.after hfirst.toSown).1
        (AllLaid.transfer hfirst.keeps rest hlaid.2)
      simpa only [plantAll, partsOfAll, singleton_append] using hfirst.append hready hrest

end

theorem plantAll_kept (t : Tree) (p : NodeId) :
    (ids : List NodeId) → PartsReady t (ids.map .whole) → (∀ id ∈ ids, t.HasSlot id) →
      (plantAll t p (ids.map .kept)).1 = ids
  | [], _, _ => by simp only [map_nil, plantAll]
  | id :: rest, hready, hslots => by
      have hsplit : PartsReady t ([.whole id] ++ rest.map .whole) := hready
      have hfirst := plant_planted t (some p) (.kept id) hsplit.left trivial
      have hrest :=
        plantAll_kept (plant t (some p) (.kept id)).2 p rest (hsplit.after hfirst.toSown).1
        fun other hother => hfirst.keeps.hasSlot (hslots other (by simp [hother]))
      simp only [map_cons, plantAll, plant_kept_fst (hslots id (by simp)), hrest]

theorem plant_leaf (t : Tree) (parent : Option NodeId) (shape : Shape)
    (position : Option Position) :
    plant t parent (.fresh shape position []) = t.pushNode (bareNode shape position parent) := by
  have hnew : (t.pushNode (bareNode shape position parent)).2.node (.slot t.size) =
    bareNode shape position parent :=
    node_pushNode_new t _
  have hsame : (t.pushNode (bareNode shape position parent)).2.update (.slot t.size)
      (fun node => { node with kids := [] }) = (t.pushNode (bareNode shape position parent)).2 := by
    apply update_eq_self
    rw [hnew]
    rfl
  simp only [plant, plantKids]
  exact Prod.ext rfl hsame

end Tree

end UnitySharp
