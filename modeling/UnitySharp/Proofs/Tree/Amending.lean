import UnitySharp.Proofs.Tree.Turned

/-!
# Terms through amended nodes

A draft may take nodes over one by one.  It is of a term if it has the nodes that the term says, and
planting it makes the term stand in the tree.
-/

namespace UnitySharp

open List

def Part.node : Part → NodeId
  | .whole id => id
  | .single id => id

namespace Tree

variable {s t t' u : Tree} {known : NodeId → Prop} {a id p : NodeId} {origin : Option NodeId}
  {face : Face} {kids : Kids Term} {term : Term} {draft : Draft} {parts others : List Part}
  {drafts : List (Role × Occupants Draft)} {ids : List NodeId}

def Drafts (s : Tree) : Term → Draft → Prop :=
  Term.fold fun origin face _ readings draft =>
    match draft with
    | .kept id => (s.Has id ∧ origin = some id ∧ (s.node id).face = face) ∧ readings = []
    | .amended id kids => (s.Has id ∧ origin = some id ∧ (s.node id).face = face) ∧
        KidsRel (fun reading draft => reading draft) readings kids
    | .fresh shape position kids => (origin = none ∧ ⟨shape, none, position, []⟩ = face) ∧
        KidsRel (fun reading draft => reading draft) readings kids
    | .typed _ _ => False

theorem drafts_kept_iff : s.Drafts (.node origin face kids) (.kept id) ↔
    (s.Has id ∧ origin = some id ∧ (s.node id).face = face) ∧ kids = [] := by
  rw [Drafts, Term.fold_node]
  simp [mapKids]

theorem drafts_amended_iff :
    s.Drafts (.node origin face kids) (.amended id drafts) ↔
      (s.Has id ∧ origin = some id ∧ (s.node id).face = face) ∧ KidsRel s.Drafts kids drafts := by
  rw [Drafts, Term.fold_node]
  simp only [KidsRel.mapKids_left_iff]

theorem drafts_fresh_iff {shape : Shape} {position : Option Position} :
    s.Drafts (.node origin face kids) (.fresh shape position drafts) ↔
      (origin = none ∧ ⟨shape, none, position, []⟩ = face) ∧ KidsRel s.Drafts kids drafts := by
  rw [Drafts, Term.fold_node]
  simp only [KidsRel.mapKids_left_iff]

theorem not_drafts_typed {type : Option Ty} : ¬s.Drafts term (.typed type draft) := by
  cases term
  rw [Drafts, Term.fold_node]
  exact fun h => h

theorem Drafts.type?_eq (h : s.Drafts term draft)
    (hface : ∀ a, s.Has a → (t.node a).face = (s.node a).face) :
    draft.type? t = term.face.type? := by
  obtain ⟨origin, face, kids⟩ := term
  cases draft with
  | kept id =>
    obtain ⟨⟨hhas, _, hid⟩, _⟩ := drafts_kept_iff.mp h
    rw [Term.face_node, ← hid, ← hface id hhas, Node.type?_face]
    rfl
  | amended id drafts =>
    obtain ⟨⟨hhas, _, hid⟩, _⟩ := drafts_amended_iff.mp h
    rw [Term.face_node, ← hid, ← hface id hhas, Node.type?_face]
    rfl
  | fresh shape position drafts =>
    obtain ⟨⟨_, rfl⟩, _⟩ := drafts_fresh_iff.mp h
    simp [Draft.type?, Face.type?]
  | typed type draft => exact (not_drafts_typed h).elim

/-- Parts are about to be planted whose nodes look as they did before. -/
structure Sowing (s t : Tree) (parts : List Part) : Prop where
  ready : PartsReady t parts
  slots : ∀ part ∈ parts, t.HasSlot part.node
  has : ∀ a, s.Has a → t.Has a
  faces : ∀ part ∈ parts, (t.node part.node).face = (s.node part.node).face
  leaves : ∀ top, .whole top ∈ parts → (t.node top).kids = []

namespace Sowing

theorem transfer (h : Sowing s t parts) (hsub : ∀ part ∈ others, part ∈ parts)
    (hready : PartsReady u others) (hkeeps : t.Keeps u)
    (hsame : ∀ part ∈ others, (u.node part.node).face = (t.node part.node).face ∧
      (u.node part.node).kids = (t.node part.node).kids) :
    Sowing s u others where
  ready := hready
  slots := fun part hpart => hkeeps.hasSlot (h.slots part (hsub part hpart))
  has := fun a ha => hkeeps.has (h.has a ha)
  faces := fun part hpart => (hsame part hpart).1.trans (h.faces part (hsub part hpart))
  leaves := fun top htop => (hsame _ htop).2.trans (h.leaves top (hsub _ htop))

theorem covers (h : Sowing s t parts) {part : Part} (hpart : part ∈ parts) :
    part.Covers t part.node := by
  have hslot := h.slots part hpart
  cases part with
  | whole id => exact ⟨Beneath.refl, hslot⟩
  | single id => exact ⟨rfl, hslot⟩

theorem left (h : Sowing s t (parts ++ others)) : Sowing s t parts :=
  h.transfer (fun _ hpart => mem_append_left _ hpart) h.ready.left (Keeps.refl t) fun _ _ =>
    ⟨rfl, rfl⟩

theorem after (h : Sowing s t (parts ++ others)) (hsown : Sown t u parts ids) :
    Sowing s u others := by
  apply h.transfer (fun _ hpart => mem_append_right _ hpart) (h.ready.after hsown).1 hsown.keeps
  intro part hpart
  have hcovers := h.covers (mem_append_right _ hpart)
  rw [hsown.frame part.node hcovers.hasSlot.has fun other hother hoverlap =>
    h.ready.across hother hpart hoverlap hcovers]
  exact ⟨rfl, rfl⟩

end Sowing

theorem Reads.after {rest : List NodeId} (h : t'.Reads known term id)
    (hready : PartsReady t (parts ++ others)) (hfirst : Sown t t' parts ids)
    (hsecond : Sown t' u others rest) (hid : id ∈ ids) : u.Reads known term id :=
  h.transfer_node (fun _ => hsecond.keeps.has) fun _ ha => hready.same_after hfirst hsecond hid ha

def Sprouts (s : Tree) (term : Term) : Prop :=
  ∀ {draft : Draft} {t : Tree} (parent : Option NodeId), s.Drafts term draft →
    Sowing s t draft.parts → draft.Laid t →
    (plant t parent draft).2.Reads s.Has term (plant t parent draft).1

theorem plantAll_reads_of_drafts {terms : List Term} {drafts : List Draft}
    (hsprouts : ∀ term ∈ terms, s.Sprouts term) (hdrafts : List.Forall₂ s.Drafts terms drafts)
    (hsowing : Sowing s t (partsOfAll drafts)) (hlaid : AllLaid t drafts) :
    List.Forall₂ ((plantAll t p drafts).2.Reads s.Has) terms (plantAll t p drafts).1 := by
  induction hdrafts generalizing t with
  | nil =>
    simp only [plantAll]
    exact .nil
  | @cons term draft terms drafts hdraft _ ih =>
    rw [forall_mem_cons] at hsprouts
    have hplanted := plant_planted t (some p) draft hsowing.ready.left hlaid.1
    have hfirst := hsprouts.1 (some p) hdraft hsowing.left hlaid.1
    have hrest := hsowing.after hplanted.toSown
    have hlaid' := AllLaid.transfer hplanted.keeps drafts hlaid.2
    have hothers := plantAll_planted (plant t (some p) draft).2 p drafts hrest.ready hlaid'
    simp only [plantAll]
    exact .cons (hfirst.after hsowing.ready hplanted.toSown hothers.toSown (by simp))
      (ih hsprouts.2 hrest hlaid')

theorem plantOccupants_reads_of_drafts {terms : Occupants Term} {drafts : Occupants Draft}
    (hsprouts : ∀ term ∈ terms.toList, s.Sprouts term)
    (hdrafts : Occupants.Rel s.Drafts terms drafts)
    (hsowing : Sowing s t (partsOfOccupants drafts)) (hlaid : OccupantsLaid t drafts) :
    Occupants.Rel ((plantOccupants t p drafts).2.Reads s.Has) terms
    (plantOccupants t p drafts).1 := by
  cases hdrafts with
  | empty => exact .empty
  | one hdraft => exact .one (hsprouts _ (by simp [Occupants.toList]) (some p) hdraft hsowing hlaid)
  | many hdrafts => exact .many (plantAll_reads_of_drafts hsprouts hdrafts hsowing hlaid)

theorem plantKids_reads_of_drafts {terms : Kids Term}
    (hsprouts : ∀ term ∈ allKids terms, s.Sprouts term) (hdrafts : KidsRel s.Drafts terms drafts)
    (hsowing : Sowing s t (partsOfKids drafts)) (hlaid : KidsLaid t drafts) :
    KidsRel ((plantKids t p drafts).2.Reads s.Has) terms (plantKids t p drafts).1 := by
  induction hdrafts generalizing t with
  | nil =>
    simp only [plantKids]
    exact .nil
  | @cons entry draft terms drafts hdraft _ ih =>
    obtain ⟨role, occupants⟩ := draft
    rw [allKids_cons, forall_mem_append] at hsprouts
    have hplanted := plantOccupants_planted t p occupants hsowing.ready.left hlaid.1
    have hfirst := plantOccupants_reads_of_drafts (p := p) hsprouts.1 hdraft.2 hsowing.left hlaid.1
    have hrest := hsowing.after hplanted.toSown
    have hlaid' := KidsLaid.transfer hplanted.keeps drafts hlaid.2
    have hothers := plantKids_planted (plantOccupants t p occupants).2 p drafts hrest.ready hlaid'
    simp only [plantKids]
    refine .cons ⟨hdraft.1, hfirst.mono fun term _ id hid hreads => ?_⟩ (ih hsprouts.2 hrest hlaid')
    exact hreads.after hsowing.ready hplanted.toSown hothers.toSown hid

theorem sprouts (s : Tree) (term : Term) : s.Sprouts term := by
  induction term with
  | node origin face kids ih =>
    intro draft t parent hdraft hsowing hlaid
    cases draft with
    | kept id =>
      obtain ⟨⟨hhas, rfl, rfl⟩, rfl⟩ := drafts_kept_iff.mp hdraft
      have hslot : t.HasSlot id := hsowing.slots (.whole id) (by simp)
      have hleaf : (t.node id).kids = [] := hsowing.leaves id (by simp)
      have hbeneath : ∀ a, t.Beneath id a → t.HasSlot a := by
        intro a ha
        rcases ha.eq_or_child with rfl | ⟨child, hchild, _⟩
        · exact hslot
        · rw [children, Node.children, hleaf] at hchild
          exact absurd hchild (by simp [allKids_nil])
      have hgrown := grown_kept (hsowing.ready.ready (.whole id) (by simp)) hbeneath parent
      obtain ⟨hface, hkids⟩ := hgrown.same id hslot.has
      rw [plant_kept_fst hslot]
      refine reads_node_iff.mpr ⟨hgrown.keeps.has hslot.has, originates_self hhas, ?_, ?_⟩
      · exact hface.trans (hsowing.faces (.whole id) (by simp))
      · rw [hkids, hleaf]
        exact .nil
    | amended id drafts =>
      obtain ⟨⟨hhas, rfl, rfl⟩, hkids⟩ := drafts_amended_iff.mp hdraft
      have hslot : t.HasSlot id := hsowing.slots (.single id) (by simp)
      obtain ⟨hready, hholder⟩ := Sown.Holder.of_slot hsowing.ready (Keeps.setParent t id parent)
        (fun a ha => (has_setParent t id a parent).mp ha) fun a _ hne =>
          node_setParent_ne t hne parent
      have hsame : ∀ a, ((t.setParent id parent).node a).face = (t.node a).face :=
        fun a => proj_node_update rfl a
      have hinner : Sowing s (t.setParent id parent) (partsOfKids drafts) :=
        hsowing.transfer (fun _ hpart => mem_cons_of_mem _ hpart) hready
          (Keeps.setParent t id parent) fun part _ =>
          ⟨hsame part.node, proj_node_update (g := Node.kids) rfl _⟩
      have hlaid' := KidsLaid.transfer (Keeps.setParent t id parent) drafts hlaid.2.2
      have hplanted := plantKids_planted (t.setParent id parent) id drafts hready hlaid'
      have hface : ((t.setParent id parent).node id).face = (s.node id).face :=
        (hsame id).trans (hsowing.faces (.single id) (by simp))
      simp only [plant, giveSlot_of_hasSlot hslot]
      rw [← hface]
      exact hholder.reads hplanted.toSown (originates_self hhas)
        (plantKids_reads_of_drafts ih hkids hinner hlaid')
    | fresh shape position drafts =>
      obtain ⟨⟨rfl, rfl⟩, hkids⟩ := drafts_fresh_iff.mp hdraft
      have hready := hsowing.ready
      obtain ⟨hready', hholder⟩ := Sown.Holder.of_new hready (bareNode shape position parent)
        fun _ => rfl
      have hkeeps := Keeps.pushNode t (bareNode shape position parent)
      have hinner :
        Sowing s (t.pushNode (bareNode shape position parent)).2 (partsOfKids drafts) := by
        apply hsowing.transfer (fun _ hpart => hpart) hready' hkeeps
        intro part hpart
        exact (grown_pushNode t _).same part.node (hsowing.slots part hpart).has
      have hlaid' := KidsLaid.transfer hkeeps drafts hlaid.2
      have hplanted := plantKids_planted (t.pushNode (bareNode shape position parent)).2
        (.slot t.size) drafts hready' hlaid'
      have hnew : ((t.pushNode (bareNode shape position parent)).2.node (.slot t.size)).face =
          ⟨shape, none, position, []⟩ := by
        rw [show (t.pushNode (bareNode shape position parent)).2.node (.slot t.size) =
          bareNode shape position parent from node_pushNode_new t _]
        rfl
      have hunknown : ¬s.Has (.slot t.size) := fun h => t.not_has_slot_size (hsowing.has _ h)
      simp only [plant]
      rw [← hnew]
      exact hholder.reads hplanted.toSown (originates_new hunknown)
        (plantKids_reads_of_drafts ih hkids hinner hlaid')
    | typed type draft => exact (not_drafts_typed hdraft).elim

/-! ## Replacing a node with loose links -/

section

variable {K P : NodeId → Prop} {old : NodeId} {new : Draft}

theorem Loosened.tidy (h : Loosened K P s t) (htidy : s.Tidy) : t.Tidy := by
  intro a ha
  by_cases hold : s.Has a
  · exact h.keeps.laid hold (htidy a hold)
  · exact (h.fresh a ha hold).1

theorem Loosened.face_eq (h : Loosened K P s t) (ha : s.Has a) :
    (t.node a).face = (s.node a).face := by
  obtain ⟨kids, parent, hnode, _⟩ := h.node a ha
  rw [hnode]
  rfl

theorem Loosened.replace_turned (h : Loosened K P s t) (htidy : s.Tidy) (hold : s.Standing old)
    (hK : ∀ a, K a → s.Within old a) (hP : ∀ a, P a → s.Within old a) (hlaid : new.Laid t)
    (hready : PartsReady (t.detachAll [old]) new.parts)
    (hdrawn : ∀ part ∈ new.parts, ∀ a, part.Covers (t.detachAll [old]) a → s.Has a →
      s.Beneath old a)
    (hreplace : t.replace old new = .ok (id, t')) :
    Turned s t' old id ∧ ∀ term, s.Drafts term new → Sowing s (t.detachAll [old]) new.parts →
      t'.Reads s.Has term id := by
  obtain ⟨p, role, before, after, hparent, hexchanged⟩ := replace_exchanged (h.tidy htidy) hreplace
  -- Neither the link of the node to its parent nor the parent itself has been touched.
  have hup : s.parent old = some p :=
    (h.parent_eq hold.has fun hbad => (hP old hbad).2 rfl).symm.trans hparent
  obtain ⟨hpS, hchild⟩ := hold.of_parent hup
  have hoff : ¬s.Beneath old p := hpS.intact.not_beneath_of_child hchild
  have habove : t.node p = s.node p :=
    h.frame hpS.has (fun hbad => hoff (hK p hbad).1) fun hbad => hoff (hP p hbad).1
  have hlaid' := Draft.Laid.transfer (Keeps.detachAll t [old]) new hlaid
  have hplanted := plant_planted (t.detachAll [old]) (some p) new hready hlaid'
  -- Planting reaches nothing that has not been beneath the node.
  have hframe : ∀ a, s.Has a → ¬s.Beneath old a →
    (plant (t.detachAll [old]) (some p) new).2.node a = s.node a := by
    intro a ha hfree
    have hne : a ∉ [old] := fun hmem => hfree (mem_singleton.mp hmem ▸ Beneath.refl)
    rw [hplanted.frame a ((has_detachAll t [old] a).mpr (h.keeps.has ha)) fun part hpart hcovers =>
      hfree (hdrawn part hpart a hcovers ha), node_detachAll, if_neg hne]
    exact h.frame ha (fun hbad => hfree (hK a hbad).1) fun hbad => hfree (hP a hbad).1
  have hhas : (plant (t.detachAll [old]) (some p) new).2.Has p :=
    hplanted.keeps.has ((has_detachAll t [old] p).mpr (h.keeps.has hpS.has))
  have hid : (plant (t.detachAll [old]) (some p) new).1 = id := singleton_inj.mp hexchanged.ids_eq
  obtain ⟨occupants, hresult, hlist⟩ := hexchanged.result
  have hresult : t' = (plant (t.detachAll [old]) (some p) new).2.setRole p role occupants := hresult
  have hlist := hlist (congrArg Node.kids ((hframe p hpS.has hoff).trans habove.symm))
  have hkids := hexchanged.list_eq
  have hrole := hexchanged.role_mem
  rw [habove] at hkids hrole
  rw [← hid] at hlist
  have hsources : s.Sources p [old] [old] := by
    intro top htop
    rw [mem_singleton.mp htop]
    exact ⟨hold.intact, hoff, Or.inl (by simp)⟩
  have hspared := h.spared hsources hpS (fun a ha => ⟨old, by simp, (hK a ha).1⟩)
    (fun a ha => ⟨old, by simp, (hP a ha).1⟩) hrole hkids hlist hplanted
    fun part hpart a hcovers ha => ⟨old, by simp, hdrawn part hpart a hcovers ha⟩
  refine ⟨⟨?_, ?_, ?_, ?_⟩, ?_⟩
  · rw [hresult]
    exact hspared.mono fun a _ ha => drawn_self_reach hold.intact hup ha
  · intro a ha hfree hne
    have hother : a ≠ p := fun heq => hne (heq ▸ hup)
    rw [hresult, Tree.setRole, node_update_ne _ hother]
    exact hframe a ha hfree
  · intro holder hholder
    rw [hup] at hholder
    cases hholder
    rw [← habove]
    refine replace_kids (h.tidy htidy) hparent (h.keeps.has hpS.has) ?_ hhas
      ((hframe p hpS.has hoff).trans habove.symm) hreplace
    rw [children, habove]
    exact hpS.intact.nodup
  · intro hnone
    rw [hup] at hnone
    cases hnone
  · intro term hdrafts hsowing
    have hreads := s.sprouts term (some p) hdrafts hsowing hlaid'
    rw [hresult, ← hid]
    refine hreads.transfer_node (fun _ ha => (has_update _ _ _ _).mpr ha) fun a ha =>
      node_update_ne _ ?_ _
    rintro rfl
    obtain ⟨part, hpart, hcovers⟩ :=
      hplanted.region _ (by simp) a ha ((has_detachAll t [old] a).mpr (h.keeps.has hpS.has))
    exact hoff (hdrawn part hpart a hcovers hpS.has)

end

end Tree

end UnitySharp
