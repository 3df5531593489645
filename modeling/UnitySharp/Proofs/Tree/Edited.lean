import UnitySharp.Proofs.Tree.Loosened

/-!
# Edits

The parts of the drafts that an operation puts in come from the children that are taken out in
exchange, or from subtrees that had been cut out before.  The edit disturbs these sources and
nothing else, and what has been put in stands.
-/

namespace UnitySharp.Tree

open List

variable {t t' u v : Tree} {a b c id old p top : NodeId} {role : Role} {parts : List Part}
  {tops before gone after ids : List NodeId} {occupants : Occupants NodeId} {kids : Kids NodeId}
  {place : Place}
  {index : Nat} {new : Draft} {news : List Draft}

/-! ## Supplies -/

/-- The parts of an edit are ready and come from its sources. -/
structure Supplied (t : Tree) (p : NodeId) (gone tops : List NodeId) (parts : List Part) :
    Prop where
  sources : t.Sources p gone tops
  ready : PartsReady t parts
  drawn : ∀ part ∈ parts, ∀ a, part.Covers t a → t.Drawn tops a

theorem Supplied.nil (t : Tree) (p : NodeId) (gone : List NodeId) : t.Supplied p gone [] [] where
  sources := by simp [Sources]
  ready := ⟨by simp, List.Pairwise.nil⟩
  drawn := by simp

theorem Supplied.graft (h : t.Supplied p gone tops parts) (hp : t.Standing p)
    (hchildren : t.children p = before ++ gone ++ after)
    (hplanted : Planted (t.detachAll gone) v (some p) parts ids) :
    Graft (t.Drawn tops) t (t.detachAll gone) v p parts before gone after ids := by
  refine (Loosened.refl (K := fun _ => False) (P := fun _ => False) t).graft h.sources hp
    (fun _ => False.elim) (fun _ => False.elim) hchildren hplanted fun part hpart a hcovers _ => ?_
  exact h.drawn part hpart a (((h.ready.detached gone).2 part hpart a).mp hcovers)

/-! ## The outcome of an edit -/

/-- An edit of the children of a standing node: some nodes are gone from it, others have taken their
place, with the parts of drafts in them. -/
structure Edited (t t' : Tree) (p : NodeId) (tops : List NodeId) (parts : List Part)
    (gone ids : List NodeId) : Prop where
  spared : Spared (t.Drawn tops) t t'
  free : ¬t.Drawn tops p
  sublist : ids.Sublist (t'.children p)
  region : ∀ id ∈ ids, ∀ a, t'.Beneath id a → t.Has a → t.Drawn tops a
  covered : ∀ part ∈ parts, ∀ a, part.Covers t a → ∃ id ∈ ids, t'.Beneath id a
  detached : ∀ c ∈ gone, ¬t.Drawn tops c → t'.node c = { t.node c with parent := none }
  frame : ∀ a, t.Has a → ¬t.Drawn tops a → a ∉ gone → a ≠ p → t'.node a = t.node a
  parent_eq : t'.parent p = t.parent p
  through : ∀ a b, t.Intact a → ¬t.Drawn tops a → t'.Beneath a b → t.Has b →
    t.Beneath a b ∨ (t.Drawn tops b ∧ t.Beneath a p)
  wholes : ∀ top, .whole top ∈ parts → t.Intact top → ∀ a, t.Beneath top a →
    (t'.node a).kids = (t.node a).kids

namespace Edited

theorem listed (h : Edited t t' p tops parts gone ids) (hid : id ∈ ids) : id ∈ t'.children p :=
  h.sublist.subset hid

theorem cut (h : Edited t t' p tops parts gone ids) (hc : c ∈ gone) (hfree : ¬t.Drawn tops c) :
    t'.parent c = none := by
  rw [Tree.parent, h.detached c hc hfree]

theorem undisturbed (h : Edited t t' p [] parts gone ids) (D : NodeId → Prop) : Spared D t t' :=
  h.spared.mono fun _ _ hdrawn => absurd hdrawn not_drawn_nil

variable (h : Edited t t' p tops parts gone ids) (hp : t.Standing p)

include h hp

theorem standing_parent : t'.Standing p :=
  h.spared.standing p hp h.free

theorem standing (hid : id ∈ ids) : t'.Standing id :=
  (h.standing_parent hp).child (h.listed hid)

theorem standing_part {part : Part} (hpart : part ∈ parts) (hcovers : part.Covers t a) :
    t'.Standing a := by
  obtain ⟨id, hid, hbelow⟩ := h.covered part hpart a hcovers
  exact (h.standing hp hid).beneath hbelow

end Edited

theorem Supplied.edited (h : t.Supplied p gone tops parts) (before after : List NodeId)
    (hp : t.Standing p) (hrole : (t.node p).kids.any (fun entry => entry.1 == role) = true)
    (hold : (kidsAt role (t.node p).kids).toList = before ++ gone ++ after)
    (hnew : occupants.toList = before ++ ids ++ after)
    (hplanted : PartsReady (t.detachAll gone) parts →
      Planted (t.detachAll gone) v (some p) parts ids) :
    Edited t (v.setRole p role occupants) p tops parts gone ids := by
  obtain ⟨first, last, hsplit, hset⟩ := exists_split_at_role hrole
  have hchildren : t.children p = (first ++ before) ++ gone ++ (after ++ last) := by
    have : t.children p = first ++ (before ++ gone ++ after) ++ last := by
      rw [← hold]
      exact hsplit
    rw [this]
    simp only [append_assoc]
  have hgraft := h.graft hp hchildren (hplanted (h.ready.detached gone).1)
  obtain ⟨hkids, hroles⟩ := hgraft.setRole_kids hset hnew
  rw [setRole_eq_update]
  constructor
  · exact hgraft.spared ((Loosened.refl (K := fun _ => False) (P := fun _ => False) t).enclosed
      h.sources) hkids hroles
  · exact hgraft.free
  · rw [hgraft.children_grafted hkids]
    exact (sublist_append_right _ _).trans (sublist_append_left _ _)
  · intro id hid a hbelow ha
    exact hgraft.drawn_of_planted hid (hgraft.planted_of_beneath hid hbelow) ha
  · intro part hpart a hcovers
    obtain ⟨id, hid, hbelow⟩ := hgraft.planted.covered part hpart a
      (((h.ready.detached gone).2 part hpart a).mpr hcovers)
    exact ⟨id, hid, hgraft.beneath_of_planted hid hbelow⟩
  · intro c hc hfree
    have hhas : t.Has c := (hp.intact.child (by rw [hchildren]; simp [hc])).has
    have hne : c ≠ p := fun heq => hgraft.apart (heq ▸ hc)
    rw [node_update_ne v hne, hgraft.node_eq hhas hfree, node_detachAll, if_pos hc]
  · intro a ha hfree hstays hne
    rw [node_update_ne v hne, hgraft.node_eq ha hfree, hgraft.same a ha hfree hstays]
  · rw [parent_update_kids, hgraft.parent_same hp.has hgraft.free hgraft.apart]
  · exact fun a b ha hfree hbelow hb => hgraft.beneath hkids ha hfree hbelow hb
  · intro top htop hintact a ha
    have hbelow : ∀ b, (t.detachAll gone).Beneath top b → t.Beneath top b := fun b hb =>
      hb.of_transfer fun c _ => children_detachAll t gone c
    have hne : a ≠ p := by
      rintro rfl
      exact hgraft.free (h.drawn _ htop a ⟨ha, (hintact.beneath ha).hasSlot⟩)
    rw [node_update_ne v hne, hgraft.planted.wholes top htop
      (fun b hb => (Keeps.detachAll t gone).hasSlot (hintact.beneath (hbelow b hb)).hasSlot) a
      (ha.transfer fun c _ => children_detachAll t gone c), node_detachAll]
    split <;> rfl

/-! ## Places -/

theorem layout_nodup (kind : NodeKind) : (kind.layout.map Prod.fst).Nodup := by
  cases kind <;> decide

theorem Tidy.roles_nodup (h : t.Tidy) (hid : t.Has id) : (t.roles id).Nodup := by
  rw [h id hid]
  exact layout_nodup _

theorem not_mem_other_role {other : Role} (hnodup : (allKids kids).Nodup) (hne : role ≠ other)
    (hc : c ∈ (kidsAt role kids).toList) : c ∉ (kidsAt other kids).toList := by
  induction kids with
  | nil => simp [kidsAt, Occupants.toList] at hc
  | cons entry rest ih =>
    obtain ⟨r, occupants⟩ := entry
    rw [allKids_cons, nodup_append] at hnodup
    obtain ⟨_, hrest, hacross⟩ := hnodup
    have hbelow : ∀ {x : Role}, c ∈ (kidsAt x rest).toList → c ∈ allKids rest := fun hmem =>
      (kidsAt_sublist_allKids _ rest).subset hmem
    by_cases hrole : r = role
    · simp only [kidsAt, hrole, if_true, hne, if_false] at hc ⊢
      exact fun hmem => hacross c hc c (hbelow hmem) rfl
    · simp only [kidsAt, hrole, if_false] at hc
      by_cases hother : r = other
      · simp only [kidsAt, hother, if_true]
        exact fun hmem => hacross c hmem c (hbelow hc) rfl
      · simp only [kidsAt, hother, if_false]
        exact ih hrest hc

def Occupies (kids : Kids NodeId) (id : NodeId) (place : Place) : Prop :=
  (place.index = none ∧ kidsAt place.role kids = .one id) ∨
    ∃ before after, place.index = some before.length ∧
      kidsAt place.role kids = .many (before ++ id :: after)

theorem Occupies.role_mem (h : Occupies kids id place) :
    kids.any (fun entry => entry.1 == place.role) = true := by
  apply any_role_of_kidsAt_ne_empty id
  rcases h with ⟨_, hone⟩ | ⟨before, after, _, hmany⟩
  · simp [hone, Occupants.toList]
  · simp [hmany, Occupants.toList]

theorem Occupies.cons {r : Role} (h : Occupies kids id place)
    (hnodup : (((r, occupants) :: kids).map Prod.fst).Nodup) :
    Occupies ((r, occupants) :: kids) id place := by
  have hne : r ≠ place.role := by
    intro heq
    subst heq
    have hmem := h.role_mem
    rw [any_eq_true] at hmem
    obtain ⟨entry, hentry, hrole⟩ := hmem
    have hrole : entry.1 = place.role := by simpa using hrole
    rw [map_cons, nodup_cons] at hnodup
    exact hnodup.1 (mem_map.mpr ⟨entry, hentry, hrole⟩)
  simpa only [Occupies, kidsAt, hne, if_false] using h

theorem exists_split_of_idxOf? (h : ids.idxOf? id = some index) :
    ∃ before after, ids = before ++ id :: after ∧ index = before.length := by
  obtain ⟨hlt, hget, _⟩ := idxOf?_eq_some_iff.mp h
  refine ⟨ids.take index, ids.drop (index + 1), ?_, by simp; omega⟩
  rw [← hget]
  simp

theorem placeAmong_occupies (hnodup : (kids.map Prod.fst).Nodup)
    (h : placeAmong p id kids = some place) :
    place.parent = p ∧ Occupies kids id place := by
  induction kids with
  | nil => simp [placeAmong] at h
  | cons entry rest ih =>
    obtain ⟨r, occupants⟩ := entry
    have hrest := ih (List.Nodup.of_cons hnodup)
    cases occupants with
    | empty =>
      simp only [placeAmong] at h
      exact ⟨(hrest h).1, (hrest h).2.cons hnodup⟩
    | one child =>
      simp only [placeAmong] at h
      split at h
      · rename_i heq
        subst heq
        cases h
        exact ⟨rfl, Or.inl ⟨rfl, by simp [kidsAt]⟩⟩
      · exact ⟨(hrest h).1, (hrest h).2.cons hnodup⟩
    | many children =>
      simp only [placeAmong] at h
      split at h
      · rename_i index hindex
        cases h
        obtain ⟨before, after, hsplit, hlength⟩ := exists_split_of_idxOf? hindex
        exact ⟨rfl, Or.inr ⟨before, after, by rw [hlength], by simp [kidsAt, hsplit]⟩⟩
      · exact ⟨(hrest h).1, (hrest h).2.cons hnodup⟩

theorem place_occupies (htidy : t.Tidy) (h : t.place id = .ok place) :
    t.parent id = some place.parent ∧ Occupies (t.node place.parent).kids id place := by
  unfold Tree.place at h
  split at h
  · exact absurd h (by simp)
  · rename_i up hup
    split at h
    · rename_i found hfound
      cases h
      have hhas : t.Has up := by
        by_contra hnew
        rw [node_of_not_has hnew] at hfound
        exact absurd hfound (by simp [placeAmong, show (default : Node).kids = [] from rfl])
      obtain ⟨hparent, hoccupies⟩ := placeAmong_occupies (htidy.roles_nodup hhas) hfound
      rw [hparent]
      exact ⟨hup, hoccupies⟩
    · exact absurd h (by simp)

theorem placeInList_occupies (htidy : t.Tidy) (h : t.placeInList id = .ok (p, role, index)) :
    t.parent id = some p ∧ ∃ before after, index = before.length ∧
      kidsAt role (t.node p).kids = .many (before ++ id :: after) := by
  unfold placeInList at h
  split at h
  · exact absurd h (by simp)
  · rename_i up r i hplace
    cases h
    obtain ⟨hparent, hoccupies⟩ := place_occupies htidy hplace
    refine ⟨hparent, ?_⟩
    rcases hoccupies with ⟨hnone, _⟩ | ⟨before, after, hindex, hmany⟩
    · exact absurd hnone (by simp)
    · exact ⟨before, after, Option.some.inj hindex, hmany⟩
  · exact absurd h (by simp)

theorem exists_placeAmong (h : c ∈ allKids kids) : ∃ place, placeAmong p c kids = some place := by
  induction kids with
  | nil => exact absurd h (by simp [allKids_nil])
  | cons entry rest ih =>
    obtain ⟨role, occupants⟩ := entry
    rw [allKids_cons, mem_append] at h
    cases occupants with
    | empty => exact ih (h.resolve_left (by simp [Occupants.toList]))
    | one child =>
      rw [placeAmong]
      split
      · exact ⟨_, rfl⟩
      · rename_i hne
        exact ih (h.resolve_left fun hmem => hne (by simpa [Occupants.toList, eq_comm] using hmem))
    | many children =>
      rw [placeAmong]
      split
      · exact ⟨_, rfl⟩
      · rename_i hnone
        refine ih (h.resolve_left fun hmem => ?_)
        exact (idxOf?_eq_none_iff.mp hnone) hmem

theorem exists_place (hparent : t.parent c = some p) (hc : c ∈ t.children p) :
    ∃ place, t.place c = .ok place := by
  obtain ⟨place, hplace⟩ := exists_placeAmong (p := p) hc
  refine ⟨place, ?_⟩
  rw [Tree.place, hparent]
  dsimp only
  rw [hplace]

theorem exists_remove (hparent : t.parent c = some p) (hc : c ∈ t.children p) :
    ∃ t', t.remove c = .ok t' := by
  obtain ⟨place, hplace⟩ := exists_place hparent hc
  rw [remove, hplace]
  dsimp only
  cases place.index with
  | none => exact ⟨_, rfl⟩
  | some index => exact ⟨_, rfl⟩

theorem exists_replace (new : Draft) (hparent : t.parent c = some p) (hc : c ∈ t.children p) :
    ∃ result, t.replace c new = .ok result := by
  obtain ⟨place, hplace⟩ := exists_place hparent hc
  rw [replace, hplace]
  dsimp only
  cases place.index with
  | none => exact ⟨_, rfl⟩
  | some index => exact ⟨_, rfl⟩

theorem place_ok (htidy : t.Tidy) (hid : t.Standing id) (h : t.place id = .ok place) :
    t.parent id = some place.parent ∧ t.Standing place.parent ∧
      Occupies (t.node place.parent).kids id place := by
  obtain ⟨hparent, hoccupies⟩ := place_occupies htidy h
  exact ⟨hparent, (hid.of_parent hparent).1, hoccupies⟩

/-! ## Exchanges -/

/-- An operation has put planted drafts in the place of some children of a node.  What the role
holds then is as expected provided that planting has left the node alone. -/
structure Exchanged (t t' : Tree) (p : NodeId) (role : Role) (before gone after : List NodeId)
    (news : List Draft) (ids : List NodeId) : Prop where
  role_mem : (t.node p).kids.any (fun entry => entry.1 == role) = true
  list_eq : (kidsAt role (t.node p).kids).toList = before ++ gone ++ after
  ids_eq : (plantAll (t.detachAll gone) p news).1 = ids
  result : ∃ occupants : Occupants NodeId,
    t' = (plantAll (t.detachAll gone) p news).2.setRole p role occupants ∧
      (((plantAll (t.detachAll gone) p news).2.node p).kids = (t.node p).kids →
        occupants.toList = before ++ ids ++ after)

theorem Exchanged.of_list (before gone after : List NodeId) (news : List Draft)
    {f : List NodeId → List NodeId}
    (hmany : kidsAt role (t.node p).kids = .many (before ++ gone ++ after))
    (hne : before ++ gone ++ after ≠ []) (hids : (plantAll (t.detachAll gone) p news).1 = ids)
    (hf : f (before ++ gone ++ after) = before ++ ids ++ after) :
    Exchanged t ((plantAll (t.detachAll gone) p news).2.changeList p role f) p role before gone
      after news ids where
  role_mem := by
    obtain ⟨c, hc⟩ := exists_mem_of_ne_nil _ hne
    exact any_role_of_kidsAt_ne_empty c (by simpa [hmany, Occupants.toList] using hc)
  list_eq := by simp [hmany, Occupants.toList]
  ids_eq := hids
  result := by
    refine ⟨_, rfl, fun hkids => ?_⟩
    simp only [Node.kidList, Node.kid, hkids, hmany, Occupants.toList]
    exact hf

theorem Exchanged.of_one (hone : kidsAt role (t.node p).kids = .one c) :
    Exchanged t
      ((plant (t.detach c) (some p) new).2.setRole p role
        (.one (plant (t.detach c) (some p) new).1)) p role [] [c] [] [new]
      [(plant (t.detach c) (some p) new).1] where
  role_mem := any_role_of_kidsAt_ne_empty c (by simp [hone, Occupants.toList])
  list_eq := by simp [hone, Occupants.toList]
  ids_eq := rfl
  result := ⟨.one _, rfl, fun _ => rfl⟩

section

variable (htidy : t.Tidy)

include htidy

/-- Replacing a node is an exchange of one child, in the role and at the index where the node
stood. -/
theorem replace_exchanged (h : t.replace old new = .ok (id, t')) :
    ∃ p role before after, t.parent old = some p ∧ Exchanged t t' p role before [old] after [new]
    [id] := by
  unfold replace at h
  cases hplace : t.place old with
  | error fault => simp [hplace] at h
  | ok place =>
    obtain ⟨hparent, hoccupies⟩ := place_occupies htidy hplace
    rw [hplace] at h
    rcases hoccupies with ⟨hindex, hone⟩ | ⟨before, after, hindex, hmany⟩
    · simp only [hindex, Except.ok.injEq, Prod.mk.injEq] at h
      obtain ⟨rfl, rfl⟩ := h
      exact ⟨place.parent, place.role, [], [], hparent, Exchanged.of_one hone⟩
    · simp only [hindex, Except.ok.injEq, Prod.mk.injEq] at h
      obtain ⟨rfl, rfl⟩ := h
      exact ⟨place.parent, place.role, before, after, hparent,
        Exchanged.of_list before [old] after [new] (by simpa using hmany) (by simp) rfl (by simp)⟩

theorem splice_exchanged (h : t.splice old news = .ok (ids, t')) :
    ∃ p role before after, t.parent old = some p ∧ Exchanged t t' p role before
    [old] after news ids := by
  unfold splice at h
  cases hplace : t.placeInList old with
  | error fault => simp [hplace] at h
  | ok place =>
    obtain ⟨up, role, index⟩ := place
    obtain ⟨hparent, before, after, hindex, hmany⟩ := placeInList_occupies htidy hplace
    simp only [hplace, Except.ok.injEq, Prod.mk.injEq] at h
    obtain ⟨rfl, rfl⟩ := h
    exact ⟨up, role, before, after, hparent,
      Exchanged.of_list before [old] after news (by simpa using hmany) (by simp) rfl
        (by simp [hindex])⟩

theorem remove_exchanged (h : t.remove id = .ok t') :
    ∃ p role before after, t.parent id = some p ∧ Exchanged t t' p role before [id] after []
    [] := by
  unfold remove at h
  cases hplace : t.place id with
  | error fault => simp [hplace] at h
  | ok place =>
    obtain ⟨hparent, hoccupies⟩ := place_occupies htidy hplace
    have hrole := hoccupies.role_mem
    rw [hplace] at h
    rcases hoccupies with ⟨hindex, hone⟩ | ⟨before, after, hindex, hmany⟩
    · simp only [hindex, Except.ok.injEq] at h
      subst h
      refine ⟨place.parent, place.role, [], [], hparent, hrole, by simp [hone, Occupants.toList],
        rfl, .empty, ?_, fun _ => rfl⟩
      rw [detach_setRole]
      rfl
    · simp only [hindex, Except.ok.injEq] at h
      subst h
      refine ⟨place.parent, place.role, before, after, hparent,
        hrole, by
        simp [hmany, Occupants.toList], rfl,
        .many (((t.node place.parent).kidList place.role).eraseIdx before.length), ?_, fun _ => ?_⟩
      · rw [changeList, detach_setRole]
        rfl
      · simp [Node.kidList, Node.kid, hmany, Occupants.toList, eraseIdx_append_of_length_le]

theorem mem_children_remove (h : t.remove id = .ok t') (hparent : t.parent id = some p)
    (hc : c ∈ t.children p) (hne : c ≠ id) : c ∈ t'.children p := by
  obtain ⟨up, role, before, after, hup, hexchanged⟩ := remove_exchanged htidy h
  rw [hparent] at hup
  cases hup
  obtain ⟨first, last, hsplit, hset⟩ := exists_split_at_role hexchanged.role_mem
  obtain ⟨occupants, rfl, hlist⟩ := hexchanged.result
  have hkids := kids_detachAll t [id] p
  have hoccupants := hlist hkids
  have hhas : (t.detachAll [id]).Has p := (has_detachAll t [id] p).mpr (has_of_mem_children hc)
  rw [hexchanged.list_eq] at hsplit
  rw [children, Node.children, hsplit] at hc
  change c ∈ ((t.detachAll [id]).setRole p role occupants).children p
  rw [children_setRole_self hhas, hkids, hset, hoccupants]
  simp only [mem_append, mem_singleton, hne, or_false] at hc ⊢
  simpa using hc

theorem insertBefore_place (h : t.insertBefore old new = .ok (id, t')) :
    ∃ p role before after, t.parent old = some p ∧ kidsAt role (t.node p).kids = .many
    (before ++ old :: after) ∧ Exchanged t t' p role before [] (old :: after) [new] [id] := by
  unfold insertBefore at h
  cases hplace : t.placeInList old with
  | error fault => simp [hplace] at h
  | ok place =>
    obtain ⟨up, role, index⟩ := place
    obtain ⟨hparent, before, after, hindex, hmany⟩ := placeInList_occupies htidy hplace
    simp only [hplace, insertAt, Except.ok.injEq, Prod.mk.injEq] at h
    obtain ⟨rfl, rfl⟩ := h
    exact ⟨up, role, before, after, hparent, hmany,
      Exchanged.of_list before [] (old :: after) [new] (by simpa using hmany) (by simp) rfl
        (by simp [hindex])⟩

theorem insertBefore_exchanged (h : t.insertBefore old new = .ok (id, t')) :
    ∃ p role before after, t.parent old = some p ∧ Exchanged t t' p role before [] after [new]
    [id] := by
  obtain ⟨p, role, before, after, hparent, _, hexchanged⟩ := insertBefore_place htidy h
  exact ⟨p, role, before, _, hparent, hexchanged⟩

theorem insertAfter_exchanged (h : t.insertAfter old new = .ok (id, t')) :
    ∃ p role before after, t.parent old = some p ∧ Exchanged t t' p role before [] after [new]
    [id] := by
  unfold insertAfter at h
  cases hplace : t.placeInList old with
  | error fault => simp [hplace] at h
  | ok place =>
    obtain ⟨up, role, index⟩ := place
    obtain ⟨hparent, before, after, hindex, hmany⟩ := placeInList_occupies htidy hplace
    simp only [hplace, insertAt, Except.ok.injEq, Prod.mk.injEq] at h
    obtain ⟨rfl, rfl⟩ := h
    refine ⟨up, role, before ++ [old], after, hparent,
      Exchanged.of_list (before ++ [old]) [] after [new] (by simpa using hmany) (by simp) rfl ?_⟩
    have hlength : before.length + 1 = (before ++ [old]).length := by simp
    rw [hindex, hlength, append_nil, take_left, drop_left]
    simp

end

theorem refill_ok (h : t.refill p role news = .ok (ids, t')) :
    ∃ prior, (t.node p).kids.any (fun entry => entry.1 == role) = true ∧
      kidsAt role (t.node p).kids = .many prior ∧
      ids = (plantAll (t.detachAll prior) p news).1 ∧
      t' = (plantAll (t.detachAll prior) p news).2.setRole p role (.many ids) := by
  unfold refill at h
  split at h
  · rename_i hrole
    split at h
    · rename_i prior hprior
      simp only [Except.ok.injEq, Prod.mk.injEq] at h
      obtain ⟨rfl, rfl⟩ := h
      exact ⟨prior, hrole, hprior, rfl, rfl⟩
    · exact absurd h (by simp)
  · exact absurd h (by simp)

theorem refill_exchanged (h : t.refill p role news = .ok (ids, t')) :
    kidsAt role (t.node p).kids = .many (t.listed p role) ∧
      Exchanged t t' p role [] (t.listed p role) [] news ids := by
  obtain ⟨prior, hrole, hmany, rfl, rfl⟩ := refill_ok h
  have hlisted : t.listed p role = prior := by
    simp [listed, Node.kidList, Node.kid, hmany, Occupants.toList]
  rw [hlisted]
  exact ⟨hmany, hrole, by simp [hmany, Occupants.toList], rfl, .many _, rfl,
    fun _ => by simp [Occupants.toList]⟩

theorem put_exchanged {new : Option Draft} (h : t.put p role new = .ok t') :
    ∃ ids, Exchanged t t' p role [] (t.listed p role) [] new.toList ids := by
  unfold put at h
  split at h
  · rename_i hrole
    have hlist : (kidsAt role (t.node p).kids).toList = [] ++ t.listed p role ++ [] := by
      simp [listed, Node.kidList, Node.kid]
    split at h
    · exact absurd h (by simp)
    · cases new with
      | none =>
        simp only [Except.ok.injEq] at h
        subst h
        exact ⟨[], hrole, hlist, rfl, .empty, rfl, fun _ => rfl⟩
      | some draft =>
        simp only [Except.ok.injEq] at h
        subst h
        exact ⟨_, hrole, hlist, rfl, .one _, rfl, fun _ => rfl⟩
  · exact absurd h (by simp)

/-! ## The operations on standing nodes -/

theorem Supplied.node_parent (h : t.Supplied p gone tops parts) (hp : t.Standing p)
    (hold : (kidsAt role (t.node p).kids).toList = before ++ gone ++ after)
    (hplanted : Planted (t.detachAll gone) v (some p) parts ids) : v.node p = t.node p := by
  have hchild : ∀ c ∈ gone, c ∈ t.children p := by
    intro c hc
    apply (kidsAt_sublist_allKids role (t.node p).kids).subset
    rw [hold]
    simp [hc]
  have hkept : p ∉ gone := fun hmem => hp.intact.not_own_child (hchild p hmem)
  rw [hplanted.frame p ((has_detachAll t gone p).mpr hp.has), node_detachAll, if_neg hkept]
  intro part hpart hcovers
  obtain ⟨top, htop, hbelow⟩ :=
    h.drawn part hpart p (((h.ready.detached gone).2 part hpart p).mp hcovers)
  exact (h.sources top htop).2.1 hbelow

theorem Exchanged.planted (h : Exchanged t t' p role before gone after news ids)
    (hlaid : AllLaid t news) (hready : PartsReady t (partsOfAll news)) :
    Planted (t.detachAll gone) (plantAll (t.detachAll gone) p news).2 (some p) (partsOfAll news)
      ids := by
  rw [← h.ids_eq]
  exact plantAll_planted _ p news (hready.detached gone).1
    (AllLaid.transfer (Keeps.detachAll t gone) news hlaid)

theorem Exchanged.edited (h : Exchanged t t' p role before gone after news ids) (hp : t.Standing p)
    (hlaid : AllLaid t news) (hsupplied : t.Supplied p gone tops (partsOfAll news)) :
    Edited t t' p tops (partsOfAll news) gone ids := by
  have hplanted := h.planted hlaid hsupplied.ready
  obtain ⟨occupants, rfl, hlist⟩ := h.result
  have hnode := hsupplied.node_parent hp h.list_eq hplanted
  exact hsupplied.edited before after hp h.role_mem h.list_eq (hlist (by rw [hnode])) fun _ =>
    hplanted

theorem replace_edited (htidy : t.Tidy) (hstanding : t.Standing old)
    (h : t.replace old new = .ok (id, t')) :
    ∃ p, t.parent old = some p ∧ t.Standing p ∧
      (new.Laid t → ∀ tops, t.Supplied p [old] tops new.parts →
        Edited t t' p tops new.parts [old] [id]) := by
  obtain ⟨p, role, before, after, hparent, hexchanged⟩ := replace_exchanged htidy h
  have hp := (hstanding.of_parent hparent).1
  refine ⟨p, hparent, hp, fun hlaid tops hsupplied => ?_⟩
  simpa [partsOfAll] using hexchanged.edited hp ⟨hlaid, trivial⟩
    (by simpa [partsOfAll] using hsupplied)

theorem remove_edited (htidy : t.Tidy) (hstanding : t.Standing id) (h : t.remove id = .ok t') :
    ∃ p, t.parent id = some p ∧ t.Standing p ∧ Edited t t' p [] [] [id] [] := by
  obtain ⟨p, role, before, after, hparent, hexchanged⟩ := remove_exchanged htidy h
  have hp := (hstanding.of_parent hparent).1
  exact ⟨p, hparent, hp, hexchanged.edited hp trivial (Supplied.nil t p [id])⟩

theorem refill_edited (hp : t.Standing p) (h : t.refill p role news = .ok (ids, t')) :
    ∃ prior, kidsAt role (t.node p).kids = .many prior ∧
      (AllLaid t news → ∀ tops, t.Supplied p prior tops (partsOfAll news) →
        Edited t t' p tops (partsOfAll news) prior ids) := by
  obtain ⟨hmany, hexchanged⟩ := refill_exchanged h
  exact ⟨t.listed p role, hmany, fun hlaid tops hsupplied => hexchanged.edited hp hlaid hsupplied⟩

theorem refill_kept {ks : List NodeId} (hslots : ∀ k ∈ ks, t.HasSlot k)
    (h : t.refill p role (ks.map .kept) = .ok (ids, t')) (hready : PartsReady t (ks.map .whole)) :
      ids = ks := by
  rw [← (refill_exchanged h).2.ids_eq]
  exact plantAll_kept _ p ks (hready.detached _).1 fun k hk =>
    (Keeps.detachAll t _).hasSlot (hslots k hk)

theorem put_edited (hp : t.Standing p) (h : t.put p role (some new) = .ok t') :
    new.Laid t → ∀ tops, t.Supplied p ((t.node p).kidList role) tops new.parts →
      ∃ id, (t'.node p).kid role = .one id ∧
        t'.node p = { t.node p with kids := setKids role (.one id) (t.node p).kids } ∧
        Edited t t' p tops new.parts ((t.node p).kidList role) [id] := by
  unfold put at h
  split at h
  · rename_i hrole
    intro hlaid tops hsupplied
    have hlist : (kidsAt role (t.node p).kids).toList = [] ++ (t.node p).kidList role ++ [] := by
      simp [Node.kidList, Node.kid]
    have hplanted : PartsReady (t.detachAll ((t.node p).kidList role)) new.parts →
        Planted (t.detachAll ((t.node p).kidList role))
          (plant (t.detachAll ((t.node p).kidList role)) (some p) new).2 (some p) new.parts
          [(plant (t.detachAll ((t.node p).kidList role)) (some p) new).1] :=
      fun hready => plant_planted _ (some p) new hready
        (Draft.Laid.transfer (Keeps.detachAll t _) new hlaid)
    have hnew : (Occupants.one
        (plant (t.detachAll ((t.node p).kidList role)) (some p) new).1).toList =
          [] ++ [(plant (t.detachAll ((t.node p).kidList role)) (some p) new).1] ++ [] := rfl
    have hedited := hsupplied.edited [] [] hp hrole hlist hnew hplanted
    have hready := (hsupplied.ready.detached ((t.node p).kidList role)).1
    have hnode := hsupplied.node_parent hp hlist (hplanted hready)
    have hhas := (hplanted hready).keeps.has ((has_detachAll t _ p).mpr hp.has)
    split at h
    · exact absurd h (by simp)
    · simp only [Except.ok.injEq] at h
      subst h
      refine ⟨_, kid_setRole_self hhas (by rw [hnode]; exact hrole) _, ?_, hedited⟩
      exact (node_update_self hhas _).trans (by rw [hnode])
  · exact absurd h (by simp)

end UnitySharp.Tree
