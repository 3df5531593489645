import UnitySharp.Proofs.Tree.Term

/-!
# Terms through edits

A draft stands for a term, and planting it makes the term stand in the tree.  An edit at a node puts
another term in its place and changes nothing that is not beneath the node, its holder's list of
children apart.
-/

namespace UnitySharp

open List

/-! ## Drafts as terms -/

mutual

/-- The term that a draft stands for, given those at the nodes that it keeps. -/
def Draft.term (look : NodeId → Term) : Draft → Term
  | .kept id => look id
  | .amended id _ => look id
  | .fresh shape position kids => .node none ⟨shape, none, position, []⟩ (Draft.termKids look kids)
  | .typed _ draft => Draft.term look draft

def Draft.termKids (look : NodeId → Term) : List (Role × Occupants Draft) → Kids Term
  | [] => []
  | (role, occupants) :: rest => (role, Draft.termOccupants look occupants) :: Draft.termKids look
    rest

def Draft.termOccupants (look : NodeId → Term) : Occupants Draft → Occupants Term
  | .empty => .empty
  | .one draft => .one (Draft.term look draft)
  | .many drafts => .many (Draft.termAll look drafts)

def Draft.termAll (look : NodeId → Term) : List Draft → List Term
  | [] => []
  | draft :: rest => Draft.term look draft :: Draft.termAll look rest

end

mutual

def Draft.Plain : Draft → Prop
  | .kept _ => True
  | .amended _ _ => False
  | .fresh _ _ kids => Draft.PlainKids kids
  | .typed _ _ => False

def Draft.PlainKids : List (Role × Occupants Draft) → Prop
  | [] => True
  | (_, occupants) :: rest => Draft.PlainOccupants occupants ∧ Draft.PlainKids rest

def Draft.PlainOccupants : Occupants Draft → Prop
  | .empty => True
  | .one draft => Draft.Plain draft
  | .many drafts => Draft.PlainAll drafts

def Draft.PlainAll : List Draft → Prop
  | [] => True
  | draft :: rest => Draft.Plain draft ∧ Draft.PlainAll rest

end

theorem plainAll_map_kept (ids : List NodeId) : Draft.PlainAll (ids.map .kept) := by
  induction ids with
  | nil => trivial
  | cons id ids ih => exact ⟨trivial, ih⟩

theorem termAll_map_kept (look : NodeId → Term) (ids : List NodeId) :
    Draft.termAll look (ids.map .kept) = ids.map look := by
  induction ids with
  | nil => rfl
  | cons id ids ih => simp [Draft.termAll, Draft.term, ih]

namespace Tree

variable {s t t' u : Tree} {known : NodeId → Prop} {look : NodeId → Term} {a b c id old p : NodeId}
  {term : Term} {parts : List Part} {role : Role} {gone ids tops ks : List NodeId}

structure Grown (t t' : Tree) : Prop where
  keeps : t.Keeps t'
  same : ∀ a, t.Has a → (t'.node a).face = (t.node a).face ∧ (t'.node a).kids = (t.node a).kids

theorem Grown.refl (t : Tree) : Grown t t :=
  ⟨Keeps.refl t, fun _ _ => ⟨rfl, rfl⟩⟩

theorem Grown.trans (h : Grown s t) (h' : Grown t u) : Grown s u where
  keeps := h.keeps.trans h'.keeps
  same := fun a ha =>
    ⟨(h'.same a (h.keeps.has ha)).1.trans (h.same a ha).1,
      (h'.same a (h.keeps.has ha)).2.trans (h.same a ha).2⟩

theorem Reads.grown (h : t.Reads known term id) (hgrown : Grown t t') : t'.Reads known term id := by
  induction term generalizing id with
  | node origin face kids ih =>
    obtain ⟨hhas, horigin, hface, hkids⟩ := reads_node_iff.mp h
    obtain ⟨hfaceEq, hkidsEq⟩ := hgrown.same id hhas
    refine reads_node_iff.mpr ⟨hgrown.keeps.has hhas, horigin, hfaceEq.trans hface, ?_⟩
    rw [hkidsEq]
    exact hkids.mono fun child hchild c _ hreads => ih child hchild hreads

/-- The terms at the nodes that a draft keeps: their subtrees have slots, and the nodes known from
before are there. -/
structure Looked (t : Tree) (known : NodeId → Prop) (look : NodeId → Term) (parts : List Part) :
    Prop where
  known_has : ∀ a, known a → t.Has a
  slots : ∀ top, .whole top ∈ parts → ∀ a, t.Beneath top a → t.HasSlot a
  reads : ∀ top, .whole top ∈ parts → t.Reads known (look top) top

theorem Looked.mono {others : List Part} (h : Looked t known look parts)
    (hsub : ∀ part ∈ others, part ∈ parts) :
    Looked t known look others :=
  ⟨h.known_has, fun top htop => h.slots top (hsub _ htop), fun top htop =>
    h.reads top (hsub _ htop)⟩

theorem Looked.grown (h : Looked t known look parts) (hgrown : Grown t t') :
    Looked t' known look parts where
  known_has := fun a ha => hgrown.keeps.has (h.known_has a ha)
  slots := by
    intro top htop a ha
    refine hgrown.keeps.hasSlot (h.slots top htop a (ha.of_transfer fun b hb => ?_))
    exact congrArg allKids (hgrown.same b (h.slots top htop b hb).has).2
  reads := fun top htop => (h.reads top htop).grown hgrown

theorem grown_pushNode (t : Tree) (node : Node) : Grown t (t.pushNode node).2 where
  keeps := Keeps.pushNode t node
  same := fun a ha => by rw [node_pushNode_old ha]; exact ⟨rfl, rfl⟩

theorem grown_kept (hready : (Part.whole id).Ready t) (hslots : ∀ a, t.Beneath id a → t.HasSlot a)
    (parent : Option NodeId) : Grown t (plant t parent (.kept id)).2 := by
  obtain ⟨hlinks, _, _⟩ := adopt_links hready.1 hslots parent
  simp only [plant, settle_stable hslots]
  refine ⟨hlinks.keeps, fun a _ => ?_⟩
  obtain ⟨up, hup, _⟩ := hlinks.node a
  rw [hup]
  exact ⟨rfl, rfl⟩

theorem Sown.Holder.reads {roles : List Role} {inner : List Part} {planted : Kids NodeId}
    {origin : Option NodeId} {kids : Kids Term} (h : Sown.Holder t t' id roles inner parts)
    (hsown : Sown t' u inner (allKids planted)) (horigin : Originates known origin id)
    (hkids : KidsRel (u.Reads known) kids planted) :
    (u.update id fun node => { node with kids := planted }).Reads known
    (.node origin (t'.node id).face kids) id := by
  have hhas := hsown.keeps.has h.slot.has
  refine reads_node_iff.mpr ⟨(has_update _ _ _ _).mpr hhas, horigin, ?_, ?_⟩
  · rw [node_update_self hhas, Sown.node_holder h hsown]
    rfl
  · rw [node_update_self hhas]
    refine hkids.mono fun term _ c hc hreads => ?_
    exact hreads.transfer_node (fun _ ha => (has_update _ _ _ _).mpr ha) fun _ ha =>
      Sown.node_held h hsown hc ha

theorem originates_self (h : known id) : Originates known (some id) id := fun _ =>
  ⟨fun heq => ⟨h, (Option.some.inj heq).symm⟩, fun heq => heq.2 ▸ rfl⟩

theorem originates_new (h : ¬known id) : Originates known none id := fun _ =>
  ⟨fun heq => absurd heq (by simp), fun heq => absurd heq.1 h⟩

theorem plant_fresh_reads {shape : Shape} {position : Option Position} {parent : Option NodeId}
    {kids : List (Role × Occupants Draft)} (hready : PartsReady t (partsOfKids kids))
    (hlaid : Draft.Laid t (.fresh shape position kids))
    (hlooked : Looked t known look (partsOfKids kids))
    (hkids : PartsReady (t.pushNode (bareNode shape position parent)).2 (partsOfKids kids) →
      Grown (t.pushNode (bareNode shape position parent)).2
          (plantKids (t.pushNode (bareNode shape position parent)).2 (.slot t.size) kids).2 ∧
        KidsRel ((plantKids (t.pushNode (bareNode shape position parent)).2 (.slot t.size)
          kids).2.Reads known) (Draft.termKids look kids)
          (plantKids (t.pushNode (bareNode shape position parent)).2 (.slot t.size) kids).1) :
    Grown t (plant t parent (.fresh shape position kids)).2 ∧
      (plant t parent (.fresh shape position kids)).2.Reads known
        (Draft.term look (.fresh shape position kids))
        (plant t parent (.fresh shape position kids)).1 := by
  obtain ⟨hready', hholder⟩ := Sown.Holder.of_new hready (bareNode shape position parent) fun _ =>
    rfl
  obtain ⟨hgrown, hreads⟩ := hkids hready'
  have hplanted := plantKids_planted (t.pushNode (bareNode shape position parent)).2 (.slot t.size)
    kids hready' (KidsLaid.transfer (Keeps.pushNode t _) kids hlaid.2)
  have hkeeps := (plant_planted t parent (.fresh shape position kids) hready hlaid).keeps
  have hnew : (t.pushNode (bareNode shape position parent)).2.node (.slot t.size) =
    bareNode shape position parent :=
    node_pushNode_new t _
  have hunknown : ¬known (.slot t.size) := fun h => t.not_has_slot_size (hlooked.known_has _ h)
  have hholds := hholder.reads hplanted.toSown (originates_new hunknown) hreads
  rw [hnew] at hholds
  simp only [plant] at hkeeps ⊢
  refine ⟨⟨hkeeps, fun a ha => ?_⟩, hholds⟩
  have hne : a ≠ .slot t.size := fun heq => t.not_has_slot_size (heq ▸ ha)
  rw [show (t.pushNode (bareNode shape position parent)).1 = .slot t.size from rfl,
    node_update_ne _ hne]
  exact ((grown_pushNode t _).trans hgrown).same a ha

mutual

theorem plant_reads (t : Tree) (parent : Option NodeId) : (draft : Draft) → draft.Plain →
    PartsReady t draft.parts → draft.Laid t → Looked t known look draft.parts →
      Grown t (plant t parent draft).2 ∧
        (plant t parent draft).2.Reads known (draft.term look) (plant t parent draft).1
  | .kept id, _, hready, _, hlooked => by
      have hslots := hlooked.slots id (by simp)
      have hgrown := grown_kept (hready.ready (.whole id) (by simp)) hslots parent
      refine ⟨hgrown, ?_⟩
      rw [plant_kept_fst (hslots id Beneath.refl)]
      exact (hlooked.grown hgrown).reads id (by simp)
  | .amended _ _, hplain, _, _, _ => hplain.elim
  | .fresh shape position kids, hplain, hready, hlaid, hlooked => by
      refine plant_fresh_reads hready hlaid hlooked fun hinner => ?_
      exact plantKids_reads _ _ kids hplain hinner
        (KidsLaid.transfer (Keeps.pushNode t _) kids hlaid.2) (hlooked.grown (grown_pushNode t _))
  | .typed _ _, hplain, _, _, _ => hplain.elim

theorem plantKids_reads (t : Tree) (p : NodeId) : (kids : List (Role × Occupants Draft)) →
    Draft.PlainKids kids → PartsReady t (partsOfKids kids) → KidsLaid t kids →
      Looked t known look (partsOfKids kids) → Grown t (plantKids t p kids).2 ∧
        KidsRel ((plantKids t p kids).2.Reads known) (Draft.termKids look kids)
          (plantKids t p kids).1
  | [], _, _, _, _ => by
      simp only [plantKids, Draft.termKids]
      exact ⟨Grown.refl t, .nil⟩
  | (role, occupants) :: rest, hplain, hready, hlaid, hlooked => by
      have hplanted := plantOccupants_planted t p occupants hready.left hlaid.1
      obtain ⟨hfirst, hreads⟩ := plantOccupants_reads t p occupants hplain.1 hready.left hlaid.1
        (hlooked.mono fun part hpart => mem_append_left _ hpart)
      obtain ⟨hrest, hothers⟩ := plantKids_reads (plantOccupants t p occupants).2 p rest hplain.2
        (hready.after hplanted.toSown).1 (KidsLaid.transfer hplanted.keeps rest hlaid.2)
        ((hlooked.mono fun part hpart => mem_append_right _ hpart).grown hfirst)
      simp only [plantKids, Draft.termKids]
      exact ⟨hfirst.trans hrest, .cons ⟨rfl, hreads.mono fun _ _ _ _ h => h.grown hrest⟩ hothers⟩

theorem plantOccupants_reads (t : Tree) (p : NodeId) : (occupants : Occupants Draft) →
    Draft.PlainOccupants occupants → PartsReady t (partsOfOccupants occupants) →
      OccupantsLaid t occupants → Looked t known look (partsOfOccupants occupants) →
        Grown t (plantOccupants t p occupants).2 ∧
          Occupants.Rel ((plantOccupants t p occupants).2.Reads known)
            (Draft.termOccupants look occupants) (plantOccupants t p occupants).1
  | .empty, _, _, _, _ => by
      simp only [plantOccupants, Draft.termOccupants]
      exact ⟨Grown.refl t, .empty⟩
  | .one draft, hplain, hready, hlaid, hlooked => by
      obtain ⟨hgrown, hreads⟩ := plant_reads t (some p) draft hplain hready hlaid hlooked
      simp only [plantOccupants, Draft.termOccupants]
      exact ⟨hgrown, .one hreads⟩
  | .many drafts, hplain, hready, hlaid, hlooked => by
      obtain ⟨hgrown, hreads⟩ := plantAll_reads t p drafts hplain hready hlaid hlooked
      simp only [plantOccupants, Draft.termOccupants]
      exact ⟨hgrown, .many hreads⟩

theorem plantAll_reads (t : Tree) (p : NodeId) : (drafts : List Draft) → Draft.PlainAll drafts →
    PartsReady t (partsOfAll drafts) → AllLaid t drafts → Looked t known look (partsOfAll drafts) →
      Grown t (plantAll t p drafts).2 ∧
        List.Forall₂ ((plantAll t p drafts).2.Reads known) (Draft.termAll look drafts)
          (plantAll t p drafts).1
  | [], _, _, _, _ => by
      simp only [plantAll, Draft.termAll]
      exact ⟨Grown.refl t, .nil⟩
  | draft :: rest, hplain, hready, hlaid, hlooked => by
      have hplanted := plant_planted t (some p) draft hready.left hlaid.1
      obtain ⟨hfirst, hreads⟩ := plant_reads t (some p) draft hplain.1 hready.left hlaid.1
        (hlooked.mono fun part hpart => mem_append_left _ hpart)
      obtain ⟨hrest, hothers⟩ := plantAll_reads (plant t (some p) draft).2 p rest hplain.2
        (hready.after hplanted.toSown).1 (AllLaid.transfer hplanted.keeps rest hlaid.2)
        ((hlooked.mono fun part hpart => mem_append_right _ hpart).grown hfirst)
      simp only [plantAll, Draft.termAll]
      exact ⟨hfirst.trans hrest, .cons (hreads.grown hrest) hothers⟩

end

theorem grown_detachAll (t : Tree) (gone : List NodeId) : Grown t (t.detachAll gone) where
  keeps := Keeps.detachAll t gone
  same := fun a _ => by
    rw [node_detachAll]
    split <;> exact ⟨rfl, rfl⟩

theorem Exchanged.reads {before after : List NodeId} {news : List Draft}
    (h : Exchanged t t' p role before gone after news ids) (hp : t.Standing p)
    (hplain : Draft.PlainAll news)
    (hlaid : AllLaid t news) (hsupplied : t.Supplied p gone tops (partsOfAll news))
    (hlooked : Looked t known look (partsOfAll news)) :
    List.Forall₂ (t'.Reads known) (Draft.termAll look news) ids := by
  have hready := (hsupplied.ready.detached gone).1
  have hlaid' := AllLaid.transfer (Keeps.detachAll t gone) news hlaid
  have hplanted := plantAll_planted (t.detachAll gone) p news hready hlaid'
  obtain ⟨_, hreads⟩ := plantAll_reads (t.detachAll gone) p news hplain hready hlaid'
    (hlooked.grown (grown_detachAll t gone))
  obtain ⟨occupants, rfl, _⟩ := h.result
  rw [h.ids_eq] at hreads hplanted
  refine forall₂_mono hreads fun term _ id hid hterm => ?_
  refine hterm.transfer_node (fun a ha => (has_update _ _ _ _).mpr ha) fun a ha => ?_
  -- Nothing that has been planted is the holder itself: it comes from the sources, which the holder
  -- is not in.
  have hne : a ≠ p := by
    rintro rfl
    obtain ⟨part, hpart, hcovers⟩ :=
      hplanted.region id hid a ha ((has_detachAll t gone a).mpr hp.has)
    obtain ⟨top, htop, hbelow⟩ :=
      hsupplied.drawn part hpart a (((hsupplied.ready.detached gone).2 part hpart a).mp hcovers)
    exact (hsupplied.sources top htop).2.1 hbelow
  exact node_update_ne _ hne _

theorem looked_wholes (hknown : ∀ a, known a → t.Has a) (hintact : ∀ k ∈ ks, t.Intact k)
    (hlook : ∀ k ∈ ks, t.Reads known (look k) k) : Looked t known look (ks.map .whole) := by
  refine ⟨hknown, fun top htop a hbelow => ?_, fun top htop => ?_⟩
  · have hmem : top ∈ ks := by simpa using htop
    exact ((hintact top hmem).beneath hbelow).hasSlot
  · exact hlook top (by simpa using htop)

theorem Edited.reads_outside (h : Edited t t' p tops parts gone ids) (hreads : t.Reads known term a)
    (hfree : ∀ b, t.Beneath a b → ¬t.Drawn tops b ∧ b ≠ p) : t'.Reads known term a := by
  apply hreads.transfer fun b hb => h.spared.keeps.has hb
  intro b hb
  obtain ⟨hdrawn, hne⟩ := hfree b hb
  by_cases hgone : b ∈ gone
  · rw [h.detached b hgone hdrawn]
    exact ⟨rfl, rfl⟩
  · obtain ⟨_, _, hread⟩ := hreads.occurs_of_beneath hb
    rw [h.frame b hread.has hdrawn hgone hne]
    exact ⟨rfl, rfl⟩

theorem exists_refill {prior : List NodeId} (news : List Draft)
    (hkid : (t.node p).kid role = .many prior) (hne : c ∈ prior) : ∃ ids t',
    t.refill p role news = .ok (ids, t') := by
  have hrole : (t.node p).kids.any (fun entry => entry.1 == role) = true := by
    apply any_role_of_kidsAt_ne_empty c
    rw [show kidsAt role (t.node p).kids = .many prior from hkid]
    exact hne
  rw [refill, if_pos hrole, hkid]
  exact ⟨_, _, rfl⟩

structure Refilled (t t' : Tree) (p : NodeId) (role : Role) (ks : List NodeId) : Prop where
  edited : Edited t t' p ks (ks.map .whole) (t.listed p role) ks
  listed : t'.listed p role = ks
  reads : ∀ known term, (∀ a, known a → t.Has a) → ∀ k ∈ ks, t.Reads known term k →
    t'.Reads known term k

theorem refill_refilled (hp : t.Standing p)
    (hsupplied : t.Supplied p (t.listed p role) ks (ks.map .whole))
    (h : t.refill p role (ks.map .kept) = .ok (ids, t')) : Refilled t t' p role ks := by
  obtain ⟨_, hexchanged⟩ := refill_exchanged h
  have hsources := fun k hk => (hsupplied.sources k hk).1
  obtain rfl : ids = ks := refill_kept (fun k hk => (hsources k hk).hasSlot) h hsupplied.ready
  rw [← partsOfAll_map_kept] at hsupplied
  have hlaid := allLaid_map_kept t ids
  refine ⟨partsOfAll_map_kept ids ▸ hexchanged.edited hp hlaid hsupplied,
    by simpa using hexchanged.listed_eq hp hlaid hsupplied, fun known term hknown k hk hread => ?_⟩
  have hlook : ∀ a, ∃ term, a ∈ ids → t.Reads known term a := fun a => by
    by_cases ha : a ∈ ids
    · exact (Reads.exists_of_intact known (hsources a ha)).imp fun _ hread _ => hread
    · exact ⟨term, fun h => absurd h ha⟩
  choose look hlook using hlook
  have hlooked := looked_wholes hknown hsources hlook
  rw [← partsOfAll_map_kept] at hlooked
  have hreads := hexchanged.reads hp (plainAll_map_kept ids) hlaid hsupplied hlooked
  rw [termAll_map_kept, forall₂_map_left_iff, forall₂_same] at hreads
  exact hread.unique (hlook k hk) ▸ hreads k hk

theorem Refilled.dropped {kept : List NodeId} (h : Refilled t t' p role kept) (hp : t.Standing p)
    (hkept : kept.Sublist (t.listed p role)) (ha : a ∈ t.listed p role) (hnot : a ∉ kept) :
    t'.Intact a ∧ t'.parent a = none ∧ (∀ b, t'.Beneath p b → ¬t'.Beneath a b) ∧
      ∀ known term, t.Reads known term a → t'.Reads known term a := by
  have hlisted := (t.listed_sublist p role).subset
  have hfree : ∀ b, t.Beneath a b → ¬t.Drawn kept b := by
    rintro b hb ⟨top, htop, hbelow⟩
    have hne : top ≠ a := fun heq => hnot (heq ▸ htop)
    exact hp.intact.siblings_apart (hlisted (hkept.subset htop)) (hlisted ha) hne hbelow hb
  have haS := hp.child (hlisted ha)
  have hnone := h.edited.cut ha (hfree a Beneath.refl)
  have hintact := (h.edited.spared.standing a haS (hfree a Beneath.refl)).intact
  have hp' := (h.edited.standing_parent hp).intact
  refine ⟨hintact, hnone, fun b hb hbelow => ?_, fun known term hread => ?_⟩
  · rcases hintact.comparable hp' hbelow hb with habove | habove
    · rcases h.edited.spared.beneath a p haS (hfree a Beneath.refl) habove
        hp.has with hback | hdrawn
      · exact hp.intact.not_beneath_of_child (hlisted ha) hback
      · exact h.edited.free hdrawn
    · have heq := hp'.eq_of_parent_none habove hnone
      exact hp.intact.not_own_child (heq ▸ hlisted ha)
  · refine h.edited.reads_outside hread fun b hb => ⟨hfree b hb, ?_⟩
    rintro rfl
    exact hp.intact.not_beneath_of_child (hlisted ha) hb

/-! ## Changes at a node -/

/-- A change within a node: nothing that is not beneath it is different. -/
structure Inside (s t : Tree) (id : NodeId) : Prop where
  spared : Spared (s.Within id) s t
  frame : ∀ a, s.Has a → ¬s.Beneath id a → t.node a = s.node a
  parent_eq : t.parent id = s.parent id

/-- A node has been turned into another one, or into itself with changes: the holder lists it in the
place of the first, and nothing else that is not beneath the first is different. -/
structure Turned (s t : Tree) (id new : NodeId) : Prop where
  spared : Spared (s.Reach id) s t
  frame : ∀ a, s.Has a → ¬s.Beneath id a → s.parent id ≠ some a → t.node a = s.node a
  holder : ∀ p, s.parent id = some p →
    t.node p = { s.node p with kids := mapKids (instead id new) (s.node p).kids }
  top : s.parent id = none → new = id

theorem instead_same (id : NodeId) : instead id id = fun c => c := by
  funext c
  by_cases h : c = id
  · rw [h, instead_self]
  · exact instead_ne h

namespace Inside

theorem refl (t : Tree) (id : NodeId) : Inside t t id :=
  ⟨Spared.refl _ t, fun _ _ _ => rfl, rfl⟩

theorem beneath_back (h : Inside s t id) (hid : s.Standing id) (ha : s.Has a)
    (hbelow : t.Beneath id a) :
    s.Beneath id a :=
  (h.spared.beneath id a hid Spared.not_within_self hbelow ha).elim (fun h => h) fun h => h.1

theorem trans (h : Inside s t id) (h' : Inside t u id) (hid : s.Standing id) : Inside s u id where
  spared := h.spared.trans_within h'.spared hid
  frame := fun a ha hoff =>
    (h'.frame a (h.spared.keeps.has ha) fun hbelow => hoff (h.beneath_back hid ha hbelow)).trans
      (h.frame a ha hoff)
  parent_eq := h'.parent_eq.trans h.parent_eq

theorem turned (h : Inside s t id) (hid : s.Standing id) : Turned s t id id where
  spared := h.spared.reach_of_within hid.intact
  frame := fun a ha hoff _ => h.frame a ha hoff
  holder := by
    intro p hp
    obtain ⟨hpS, hchild⟩ := hid.of_parent hp
    rw [h.frame p hpS.has (hpS.intact.not_beneath_of_child hchild), instead_same, mapKids_id]
  top := fun _ => rfl

end Inside

namespace Turned

variable {new : NodeId}

theorem inside (h : Turned s t c new) (hid : s.Standing id) (hc : c ∈ s.children id) :
    Inside s t id where
  spared := h.spared.within_of_child hid.intact hc
  frame := by
    intro a ha hoff
    refine h.frame a ha (fun hbelow => hoff (hbelow.below_child hc)) ?_
    rw [hid.intact.parent_child hc]
    rintro ⟨⟩
    exact hoff Beneath.refl
  parent_eq := by
    rw [Tree.parent, h.holder id (hid.intact.parent_child hc)]
    rfl

theorem reads_sibling (h : Turned s t c new) (hid : s.Standing id) (hc : c ∈ s.children id)
    (hd : a ∈ s.children id) (hne : a ≠ c) (hreads : s.Reads known term a) :
    t.Reads known term a := by
  refine hreads.transfer_node (fun _ => h.spared.keeps.has) fun b hb => h.frame b ?_ ?_ ?_
  · exact ((hid.child hd).beneath hb).has
  · exact fun hbelow => hid.intact.siblings_apart hc hd hne.symm hbelow hb
  · rw [hid.intact.parent_child hc]
    rintro ⟨⟩
    exact hid.intact.not_beneath_of_child hd hb

theorem trans_inside (h : Turned s t id new) (h' : Inside t u new) (hid : s.Standing id)
    (hregion : ∀ a, t.Beneath new a → s.Has a → s.Reach id a) : Turned s u id new where
  spared := h.spared.trans h'.spared fun a ha hwithin => hregion a hwithin.1 ha
  frame := fun a ha hoff hne =>
    (h'.frame a (h.spared.keeps.has ha) fun hbelow => hoff (hregion a hbelow ha).1).trans
      (h.frame a ha hoff hne)
  holder := by
    intro p hp
    obtain ⟨hpS, hchild⟩ := hid.of_parent hp
    rw [h'.frame p (h.spared.keeps.has hpS.has) fun hbelow =>
      hpS.intact.not_beneath_of_child hchild (hregion p hbelow hpS.has).1]
    exact h.holder p hp
  top := h.top

end Turned

/-- Replacing a node by a draft turns the node into the draft's own and disturbs nothing beside
it. -/
theorem replace_turned {new : Draft} (htidy : t.Tidy) (hold : t.Standing old) (hplain : new.Plain)
    (hlaid : new.Laid t) (htaken : t.TakenFrom old new.parts)
    (hlooked : Looked t known look new.parts) (h : t.replace old new = .ok (id, t')) :
    Turned t t' old id ∧ t'.Reads known (new.term look) id := by
  obtain ⟨p, role, before, after, hparent, hexchanged⟩ := replace_exchanged htidy h
  obtain ⟨hp, hchild⟩ := hold.of_parent hparent
  have hsupplied := htaken.supplied hp.intact hchild
  have hedited : Edited t t' p [old] new.parts [old] [id] := by
    simpa [partsOfAll] using hexchanged.edited hp ⟨hlaid, trivial⟩
      (by simpa [partsOfAll] using hsupplied)
  refine ⟨⟨(replace_taken htidy hold hlaid htaken h).spared, ?_, ?_, ?_⟩, ?_⟩
  · intro a ha hoff hne
    have hfree : ¬t.Drawn [old] a := fun ⟨top, htop, hbelow⟩ =>
      hoff (mem_singleton.mp htop ▸ hbelow)
    refine hedited.frame a ha hfree (fun hmem => hoff ?_) fun heq => hne (heq ▸ hparent)
    rw [mem_singleton.mp hmem]
  · intro up hup
    rw [hparent] at hup
    cases hup
    exact replace_holder htidy hold hparent hlaid hsupplied h
  · intro hnone
    rw [hparent] at hnone
    cases hnone
  · have hreads :=
      hexchanged.reads hp ⟨hplain, trivial⟩ ⟨hlaid, trivial⟩ (by simpa [partsOfAll] using hsupplied)
      (by simpa [partsOfAll] using hlooked)
    simp only [Draft.termAll] at hreads
    cases hreads with
    | cons hfirst _ => exact hfirst

end Tree

end UnitySharp
