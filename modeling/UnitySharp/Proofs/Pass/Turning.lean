import UnitySharp.Proofs.Tree.Turned

/-!
# Passes as functions on terms

What a pass does as a whole is a function on terms: where one term stood before, the function's
value stands afterwards, and the origins in it say which of its nodes have stayed.  The central
lemma is about turning one child of a node after the other; descending, converting arguments and
changing a single child are all cases of it.
-/

namespace UnitySharp

open UnitySharp.Tree List

variable {α : Type} {role : Role} {known : NodeId → Prop} {id c new : NodeId} {term : Term}
  {origin : Option NodeId} {face : Face} {kids : Kids Term}

theorem Name.isAmong_of_isIn {name : Name} {words : List String} {among : Bool}
    (h : name.isIn words = .ok among) :
    name.isAmong words = among := by
  obtain ⟨key, hkey, hany⟩ := Except.map_eq_ok h
  cases name with
  | text s =>
    cases hkey
    simpa [Name.isAmong] using hany
  | other value =>
    simp only [Name.key?] at hkey
    split at hkey
    · cases hkey
      simpa [Name.isAmong] using hany
    · cases hkey

theorem kidsAt_of_mem {kids : Kids α} {entry : Role × Occupants α}
    (hroles : (kids.map Prod.fst).Nodup) (hentry : entry ∈ kids) :
    kidsAt entry.1 kids = entry.2 := by
  induction kids with
  | nil => exact absurd hentry (by simp)
  | cons first rest ih =>
    rw [map_cons, nodup_cons] at hroles
    rcases mem_cons.mp hentry with rfl | hentry
    · rw [kidsAt, if_pos rfl]
    · have hne : first.1 ≠ entry.1 := fun heq => hroles.1 (heq ▸ mem_map_of_mem hentry)
      rw [kidsAt, if_neg hne]
      exact ih hroles.2 hentry

theorem mapKids_eq_setKids {kids : Kids α} {σ : α → α} (hroles : (kids.map Prod.fst).Nodup)
    (hfix : ∀ entry ∈ kids, entry.1 ≠ role → ∀ c ∈ entry.2.toList, σ c = c) :
    mapKids σ kids = setKids role ((kidsAt role kids).map σ) kids := by
  have hid : ∀ occupants : Occupants α, (∀ c ∈ occupants.toList, σ c = c) →
    occupants.map σ = occupants := by
    intro occupants h
    rw [Occupants.map_congr h]
    cases occupants <;> simp [Occupants.map]
  induction kids with
  | nil => rfl
  | cons first rest ih =>
    rw [map_cons, nodup_cons] at hroles
    rw [forall_mem_cons] at hfix
    have hcons : mapKids σ (first :: rest) = (first.1, first.2.map σ) :: mapKids σ rest := rfl
    by_cases hrole : first.1 = role
    · have hrest : mapKids σ rest = rest := by
        conv_rhs => rw [← map_id rest]
        refine map_congr_left fun entry hentry => Prod.ext rfl (hid _ ?_)
        exact hfix.2 entry hentry fun heq => hroles.1 (hrole ▸ heq ▸ mem_map_of_mem hentry)
      rw [hcons, setKids, kidsAt, if_pos hrole, if_pos hrole, hrest]
    · rw [hcons, setKids, kidsAt, if_neg hrole, if_neg hrole, ih hroles.2 hfix.2,
        hid _ (hfix.1 hrole)]

namespace Tree

variable {s t u : Tree} {touched : List NodeId} {σ : NodeId → NodeId} {others : Kids Term}

/-- The nodes have the roles of their kinds, and those known from before are there. -/
structure Familiar (known : NodeId → Prop) (t : Tree) : Prop where
  tidy : t.Tidy
  known_has : ∀ a, known a → t.Has a

theorem Familiar.of_spared {D : NodeId → Prop} (h : Familiar known s) (hspared : Spared D s t) :
    Familiar known t :=
  ⟨hspared.tidy h.tidy, fun a ha => hspared.keeps.has (h.known_has a ha)⟩

section

variable (h : t.Reads known (.node origin face kids) id)

include h

theorem Reads.roles_nodup (htidy : t.Tidy) : (kids.map Prod.fst).Nodup := by
  rw [h.roles htidy]
  exact layout_nodup _

theorem Reads.only (honly : t.only? id role = some c) :
    ∃ term, kidsAt role kids = .one term ∧ t.Reads known term c := by
  have hrel := h.kids.at_role role
  rw [Term.kids, show kidsAt role (t.node id).kids = .one c from kid_of_only? honly] at hrel
  generalize kidsAt role kids = occupants at hrel
  cases hrel with
  | one hterm => exact ⟨_, rfl, hterm⟩

theorem Reads.only_of_kid (hkid : kidsAt role kids = .one term) :
    ∃ c, t.only? id role = some c ∧ t.Reads known term c := by
  have hrel := h.kids.at_role role
  rw [Term.kids, hkid] at hrel
  rw [only?, Node.kid]
  generalize kidsAt role (t.node id).kids = occupants at hrel
  cases hrel with
  | one hterm => exact ⟨_, rfl, hterm⟩

end

/-- Some children of a node have been turned into others, and the rest of them are as before. -/
structure TurnedKids (known : NodeId → Prop) (s t : Tree) (id : NodeId) (touched : List NodeId)
    (σ : NodeId → NodeId) : Prop where
  inside : Inside s t id
  node_eq : t.node id = { s.node id with kids := mapKids σ (s.node id).kids }
  same : ∀ c ∈ s.children id, c ∉ touched → σ c = c ∧ ∀ term, s.Reads known term c →
    t.Reads known term c

namespace TurnedKids

theorem refl (known : NodeId → Prop) (t : Tree) (id : NodeId) :
    TurnedKids known t t id [] fun c => c where
  inside := Inside.refl t id
  node_eq := by rw [mapKids_id]
  same := fun _ _ _ => ⟨rfl, fun _ h => h⟩

variable (h : TurnedKids known s t id touched σ)

include h

theorem standing (hid : s.Standing id) : t.Standing id :=
  hid.of_within h.inside.spared

theorem children_eq : t.children id = (s.children id).map σ := by
  rw [children, h.node_eq, Node.children, allKids_mapKids]
  rfl

theorem face_eq : (t.node id).face = (s.node id).face := by
  rw [h.node_eq]
  rfl

theorem injective (hid : s.Standing id) {a b : NodeId} (ha : a ∈ s.children id)
    (hb : b ∈ s.children id) (heq : σ a = σ b) : a = b := by
  have hnodup := (h.standing hid).intact.nodup
  rw [h.children_eq] at hnodup
  exact inj_on_of_nodup_map hnodup ha hb heq

theorem step (hid : s.Standing id) (hc : c ∈ s.children id) (hfree : c ∉ touched)
    (hturned : Turned t u c new) :
    TurnedKids known s u id (c :: touched) fun a => instead c new (σ a) := by
  have hidT := h.standing hid
  have hcT : c ∈ t.children id := by
    rw [h.children_eq]
    exact mem_map.mpr ⟨c, hc, (h.same c hc hfree).1⟩
  constructor
  · exact h.inside.trans (hturned.inside hidT hcT) hid
  · rw [hturned.holder id (hidT.intact.parent_child hcT), h.node_eq, mapKids_mapKids]
  · intro a ha hout
    rw [mem_cons, not_or] at hout
    obtain ⟨hσ, hsame⟩ := h.same a ha hout.2
    refine ⟨by rw [hσ, instead_ne hout.1], fun term hreads => ?_⟩
    refine hturned.reads_sibling hidT hcT ?_ hout.1 (hsame term hreads)
    rw [h.children_eq]
    exact mem_map.mpr ⟨a, ha, hσ⟩

theorem reads (hid : s.Standing id) (hreads : s.Reads known (.node origin face kids) id)
    (hkids : KidsRel (t.Reads known) others (mapKids σ (s.node id).kids)) :
    t.Reads known (.node origin face others) id := by
  obtain ⟨_, horigin, hface, _⟩ := reads_node_iff.mp hreads
  refine reads_node_iff.mpr ⟨(h.standing hid).has, horigin, h.face_eq.trans hface, ?_⟩
  rw [h.node_eq]
  exact hkids

theorem reads_role (htidy : s.Tidy) (hid : s.Standing id) {first : Occupants Term}
    (hreads : s.Reads known (.node origin face kids) id)
    (htouched : ∀ c ∈ touched, c ∈ (kidsAt role (s.node id).kids).toList)
    (hfirst : Occupants.Rel (t.Reads known) first ((kidsAt role (s.node id).kids).map σ)) :
    t.Reads known (.node origin face (setKids role first kids)) id := by
  have hroles : ((s.node id).kids.map Prod.fst).Nodup := htidy.roles_nodup hid.has
  have hsame : ∀ entry ∈ (s.node id).kids, entry.1 ≠ role → ∀ c ∈ entry.2.toList,
      σ c = c ∧ ∀ term, s.Reads known term c → t.Reads known term c := by
    intro entry hentry hne c hc
    refine h.same c (mem_flatMap.mpr ⟨entry, hentry, hc⟩) fun hmem => ?_
    refine not_mem_other_role hid.intact.nodup hne.symm (htouched c hmem) ?_
    rwa [kidsAt_of_mem hroles hentry]
  refine h.reads hid hreads ?_
  rw [mapKids_eq_setKids hroles fun entry hentry hne c hc => (hsame entry hentry hne c hc).1]
  exact hreads.kids.set hfirst hroles fun entry hentry hne term c hc =>
    (hsame entry hentry hne c hc).2 term

end TurnedKids

structure Partway (known : NodeId → Prop) (becomes : Term → Term → Prop) (s t : Tree)
    (id : NodeId) : Prop where
  inside : Inside s t id
  face_eq : (t.node id).face = (s.node id).face
  kids : ∀ before now, KidsRel (s.Reads known) before (s.node id).kids →
    KidsRel (t.Reads known) now (t.node id).kids →
    KidsRel (fun term old => term = old ∨ becomes old term) now before

theorem TurnedKids.partway {becomes : Term → Term → Prop} (h : TurnedKids known s t id touched σ)
    (hdone : ∀ c ∈ touched, ∀ term, s.Reads known term c → ∃ other, becomes term other ∧
      t.Reads known other (σ c)) :
    Partway known becomes s t id where
  inside := h.inside
  face_eq := h.face_eq
  kids := by
    intro before now hbefore hnow
    rw [h.node_eq] at hnow
    refine (KidsRel.mapKids_right_iff.mp hnow).join hbefore fun term old c hc hterm hold => ?_
    by_cases htouched : c ∈ touched
    · obtain ⟨other, hbecomes, hother⟩ := hdone c htouched old hold
      rw [hterm.unique hother]
      exact Or.inr hbecomes
    · obtain ⟨hσ, hsame⟩ := h.same c hc htouched
      rw [hσ] at hterm
      exact Or.inl (hterm.unique (hsame old hold))

theorem update_reads {f : Node → Node} (hspared : ∀ D, Spared D t (t.update id f))
    (hkids : (f (t.node id)).kids = (t.node id).kids)
    (hparent : (f (t.node id)).parent = (t.node id).parent)
    (hid : t.Standing id) (hreads : t.Reads known (.node origin face kids) id) :
    Inside t (t.update id f) id ∧
      (t.update id f).Reads known (.node origin (f (t.node id)).face kids) id := by
  obtain ⟨hhas, horigin, _, hterms⟩ := reads_node_iff.mp hreads
  have hnode : (t.update id f).node id = f (t.node id) := node_update_self hhas f
  have hother : ∀ a, a ≠ id → (t.update id f).node a = t.node a := fun a ha => node_update_ne t ha f
  refine ⟨⟨hspared _, fun a _ hoff => hother a ?_, ?_⟩, ?_⟩
  · rintro rfl
    exact hoff Beneath.refl
  · rw [parent, hnode, hparent, parent]
  · refine reads_node_iff.mpr ⟨(has_update _ _ _ _).mpr hhas, horigin, by rw [hnode], ?_⟩
    rw [hnode, hkids]
    refine hterms.mono fun term _ c hc hterm =>
      hterm.transfer_node (fun _ ha => (has_update _ _ _ _).mpr ha) fun a ha => hother a ?_
    rintro rfl
    exact hid.intact.not_beneath_of_child hc ha

end Tree

namespace Pass

variable {s : Session} {ground : Tree → Prop} {visit : NodeId → Pass Unit} {action : Pass Unit}
  {post : Option Ty → Session → Prop}

def BecomesBy (ground : Tree → Prop) (known : NodeId → Prop) (goal : Term → Prop)
    (action : Pass Unit) (s : Session) (id : NodeId) : Prop :=
  Yields action s fun _ after =>
    ground after.tree ∧ ∃ new term, Turned s.tree after.tree id new ∧
      after.tree.Reads known term new ∧ goal term

theorem BecomesBy.mono {goal weaker : Term → Prop} (h : BecomesBy ground known goal action s id)
    (hweaker : ∀ term, goal term → weaker term) : BecomesBy ground known weaker action s id :=
  Yields.mono h fun _ _ ⟨hafter, new, term, hturned, hreads, hgoal⟩ =>
    ⟨hafter, new, term, hturned, hreads, hweaker term hgoal⟩

theorem Yields.typeAt_eq (h : ∀ type, (s.tree.node id).type? = some type → post type s) :
    Yields (Pass.typeAt id) s post := by
  refine Yields.read (Yields.ofExcept fun type htype => h type ?_)
  unfold Tree.typeAt at htype
  split at htype
  · rename_i hsome
    cases htype
    exact hsome
  · exact absurd htype (by simp)

theorem Yields.typeIn_eq {post : Option Ty → Session → Prop}
    (h : ∀ c type, s.tree.only? id role = some c → (s.tree.node c).type? = some type →
      post type s) :
    Yields (Pass.typeIn id role) s post := by
  refine Yields.read (Yields.ofExcept fun type htype => ?_)
  unfold Tree.typeIn at htype
  obtain ⟨c, hc, htype⟩ := Except.bind_eq_ok htype
  unfold Tree.child at hc
  split at hc
  · rename_i honly
    cases hc
    unfold Tree.typeAt at htype
    split at htype
    · rename_i hsome
      cases htype
      exact h _ _ honly hsome
    · exact absurd htype (by simp)
  · exact absurd hc (by simp)

theorem forM_becomes (known : NodeId → Prop) {items : List α} (node : α → NodeId)
    (becomes : α → Term → Term → Prop) {action : α → Pass Unit} (hground : ground s.tree)
    (hid : s.tree.Standing id) (hnodup : (items.map node).Nodup)
    (hchildren : ∀ item ∈ items, node item ∈ s.tree.children id)
    (h : ∀ item ∈ items, ∀ middle term, ground middle.tree →
      Partway known (fun old new => ∃ item ∈ items, becomes item old new) s.tree middle.tree id →
      s.tree.Reads known term (node item) → node item ∈ middle.tree.children id →
        middle.tree.Reads known term (node item) →
        BecomesBy ground known (becomes item term) (action item) middle (node item)) :
    Yields (items.forM action) s fun _ after => ground after.tree ∧
      ∃ σ, TurnedKids known s.tree after.tree id (items.map node) σ ∧
        ∀ item ∈ items, ∀ term, s.tree.Reads known term (node item) →
          ∃ other, becomes item term other ∧ after.tree.Reads known other (σ (node item)) := by
  -- The items dealt with so far are `before`; the induction is on those that are left.
  have hfrom : ∀ rest before middle σ, items = before ++ rest → ground middle.tree →
      TurnedKids known s.tree middle.tree id (before.map node) σ →
      (∀ item ∈ before, ∀ term, s.tree.Reads known term (node item) →
        ∃ other, becomes item term other ∧ middle.tree.Reads known other (σ (node item))) →
      Yields (rest.forM action) middle fun _ after => ground after.tree ∧
        ∃ σ, TurnedKids known s.tree after.tree id (items.map node) σ ∧
          ∀ item ∈ items, ∀ term, s.tree.Reads known term (node item) →
            ∃ other, becomes item term other ∧ after.tree.Reads known other (σ (node item)) := by
    intro rest
    induction rest with
    | nil =>
      intro before middle σ hsplit hmiddle hturned hdone
      rw [append_nil] at hsplit
      subst hsplit
      exact Yields.pure ⟨hmiddle, σ, hturned, hdone⟩
    | cons item rest ih =>
      intro before middle σ hsplit hmiddle hturned hdone
      have hitem : item ∈ items := by simp [hsplit]
      have hc := hchildren item hitem
      have hfree : node item ∉ before.map node := by
        rw [hsplit, map_append, nodup_append] at hnodup
        intro hmem
        exact hnodup.2.2 _ hmem (node item) (by simp) rfl
      obtain ⟨hσ, hsame⟩ := hturned.same _ hc hfree
      have hidM := hturned.standing hid
      have hcM : node item ∈ middle.tree.children id := by
        rw [hturned.children_eq]
        exact mem_map.mpr ⟨node item, hc, hσ⟩
      have hpartway : Partway known (fun old new => ∃ item ∈ items, becomes item old new) s.tree
        middle.tree id := by
        refine hturned.partway fun c hc term hterm => ?_
        obtain ⟨done, hmem, rfl⟩ := mem_map.mp hc
        obtain ⟨other, hbecomes, hother⟩ := hdone done hmem term hterm
        exact ⟨other, ⟨done, by simp [hsplit, hmem], hbecomes⟩, hother⟩
      obtain ⟨term, hterm⟩ := Reads.exists_of_intact known (hid.child hc).intact
      refine Yields.bind
        (Yields.mono (h item hitem middle term hmiddle hpartway hterm hcM (hsame term hterm)) ?_)
      rintro _ after ⟨hafter, new, other, hnew, hreads, hbecomes⟩
      have hstep := hturned.step hid hc hfree hnew
      refine ih (before ++ [item]) after (fun a => instead (node item) new (σ a))
        (by simpa using hsplit) hafter ?_ ?_
      · refine ⟨hstep.inside, hstep.node_eq, fun c hchild hout => hstep.same c hchild fun hmem =>
          hout ?_⟩
        rw [map_append, mem_append]
        rcases mem_cons.mp hmem with rfl | hmem
        · exact Or.inr (by simp)
        · exact Or.inl hmem
      · intro earlier hearlier e he
        rcases mem_append.mp hearlier with hearlier | hearlier
        · have hearlierC := hchildren earlier (by simp [hsplit, hearlier])
          have hne : σ (node earlier) ≠ node item := by
            intro heq
            refine hfree (hturned.injective hid hearlierC hc (heq.trans hσ.symm) ▸ ?_)
            exact mem_map_of_mem hearlier
          rw [instead_ne hne]
          obtain ⟨result, hresult, hresultM⟩ := hdone earlier hearlier e he
          refine ⟨result, hresult, hnew.reads_sibling hidM hcM ?_ hne hresultM⟩
          rw [hturned.children_eq]
          exact mem_map_of_mem hearlierC
        · rw [mem_singleton.mp hearlier] at he ⊢
          rw [hσ, instead_self, he.unique hterm]
          exact ⟨other, hbecomes, hreads⟩
  exact hfrom items [] s (fun c => c) rfl hground (TurnedKids.refl known s.tree id) (by simp)

theorem keeping_turned {t' : Tree} {draft : Draft} (hground : Familiar known s.tree)
    (hid : s.tree.Standing id) (hplain : draft.Plain) (hlaid : draft.Laid s.tree)
    (hparts : draft.parts = [.whole c]) (htaken : s.tree.TakenFrom id [.whole c])
    (hc : s.tree.Standing c) (hterm : s.tree.Reads known term c)
    (h : s.tree.replace id draft = .ok (new, t')) :
    Turned s.tree t' id new ∧ t'.Reads known (draft.term fun _ => term) new ∧
      Replaced s.tree t' id new [.whole c] := by
  have hlooked : Looked s.tree known (fun _ => term) [.whole c] := by
    refine ⟨hground.known_has, ?_, ?_⟩
    · intro top htop a ha
      cases mem_singleton.mp htop
      exact (hc.beneath ha).intact.hasSlot
    · intro top htop
      cases mem_singleton.mp htop
      exact hterm
  obtain ⟨hturned, hreads⟩ :=
    replace_turned hground.tidy hid hplain hlaid (hparts ▸ htaken) (hparts ▸ hlooked) h
  exact ⟨hturned, hreads, hparts ▸ replace_taken hground.tidy hid hlaid (hparts ▸ htaken) h⟩

theorem child_becomes (becomes : Term → Term → Prop) (htidy : s.tree.Tidy)
    (hid : s.tree.Standing id) (honly : s.tree.only? id role = some c)
    (hreads : s.tree.Reads known (.node origin face kids) id)
    (haction : ∀ term, s.tree.Reads known term c →
      BecomesBy ground known (becomes term) action s c) :
    Yields action s fun _ after => ground after.tree ∧ Inside s.tree after.tree id ∧
      ∃ term other, kidsAt role kids = .one term ∧ s.tree.Reads known term c ∧ becomes term other ∧
        after.tree.Reads known (.node origin face (setKids role (.one other) kids)) id := by
  have hkid : kidsAt role (s.tree.node id).kids = .one c := kid_of_only? honly
  have hc := mem_children_of_only? honly
  obtain ⟨term, hkids, hterm⟩ := hreads.only honly
  refine Yields.mono (haction term hterm) ?_
  rintro _ after ⟨hafter, new, other, hturned, hnew, hbecomes⟩
  have hstep := (TurnedKids.refl known s.tree id).step hid hc (by simp) hturned
  refine ⟨hafter, hstep.inside, term, other, hkids, hterm, hbecomes,
    hstep.reads_role htidy hid hreads ?_ ?_⟩
  · intro a ha
    rw [mem_singleton.mp ha, hkid]
    exact mem_singleton_self c
  · rw [hkid]
    refine .one ?_
    simpa only [instead_self] using hnew

/-- Descending turns all children into something that they may become, if each visit does so while
the others are as before or already turned. -/
theorem descend_becomes (becomes : Term → Term → Prop) (hground : ground s.tree)
    (hid : s.tree.Standing id) (hreads : s.tree.Reads known (.node origin face kids) id)
    (hvisit : ∀ middle child term, ground middle.tree →
      Partway known becomes s.tree middle.tree id → term ∈ allKids kids →
        child ∈ middle.tree.children id → middle.tree.Reads known term child →
        BecomesBy ground known (becomes term) (visit child) middle child) :
    Yields (descend visit id) s fun _ after => ground after.tree ∧ Inside s.tree after.tree id ∧
      ∃ others, KidsRel (fun new old => becomes old new) others kids ∧
        after.tree.Reads known (.node origin face others) id := by
  refine Yields.read
    ((forM_becomes known (fun c => c) (fun _ => becomes) hground hid ?_ (by simp) ?_).mono ?_)
  · simpa using hid.intact.nodup
  · intro child hchild middle term hmiddle hpartway hterm hchildM htermM
    have hparent := (hid.of_within hpartway.inside.spared).intact.parent_child hchildM
    obtain ⟨kid, hkid, hread⟩ := hreads.kids.exists_left hchild
    refine Yields.read ?_
    rw [if_pos (by simp [hparent])]
    refine hvisit middle child term hmiddle ⟨hpartway.inside, hpartway.face_eq,
      fun before now hbefore hnow => ?_⟩ (hterm.unique hread ▸ hkid) hchildM htermM
    refine (hpartway.kids before now hbefore hnow).mono fun _ _ _ _ h => h.imp_right ?_
    rintro ⟨_, _, hbecomes⟩
    exact hbecomes
  · rintro _ after ⟨hafter, σ, hturned, hdone⟩
    have hread : ∀ child ∈ allKids (s.tree.node id).kids, ∃ other,
        after.tree.Reads known other (σ child) ∧ ∃ term, s.tree.Reads known term child ∧
        becomes term other := by
      intro child hchild
      obtain ⟨term, _, hterm⟩ := hreads.kids.exists_left hchild
      obtain ⟨other, hbecomes, hother⟩ := hdone child hchild term hterm
      exact ⟨other, hother, term, hterm, hbecomes⟩
    obtain ⟨others, hothers⟩ := KidsRel.exists_kids hread
    refine ⟨hafter, hturned.inside, others, ?_, hturned.reads hid hreads ?_⟩
    · refine hothers.join hreads.kids fun new old child _ hnew hold => ?_
      obtain ⟨_, term, hterm, hbecomes⟩ := hnew
      rwa [hold.unique hterm]
    · exact KidsRel.mapKids_right_iff.mpr (hothers.mono fun _ _ _ _ h => h.1)

end Pass

end UnitySharp
