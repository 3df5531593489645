import UnitySharp.Proofs.Tree.Edited

/-!
# Renewed nodes

A new node takes the place of an old one among the children of its parent, and the old one loses its
parent.  Any number of such replacements is described by the function that gives each node its
replacement.
-/

namespace UnitySharp

open List

variable {old c : NodeId} {ids : List NodeId}

/-- The function that puts one node in the place of another. -/
def instead (old new c : NodeId) : NodeId :=
  if c = old then new else c

theorem instead_self (old new : NodeId) : instead old new old = new :=
  if_pos rfl

theorem instead_ne {new : NodeId} (h : c ≠ old) : instead old new c = c :=
  if_neg h

theorem map_instead_of_not_mem {new : NodeId} (h : old ∉ ids) :
    ids.map (instead old new) = ids := by
  conv_rhs => rw [← map_id ids]
  exact map_congr_left fun c hc => instead_ne fun heq => h (heq ▸ hc)

namespace Tree

variable {s t u t' : Tree} {f g : NodeId → NodeId} {a b id p : NodeId} {place : Place} {role : Role}

theorem setKids_eq_mapKids {kids : Kids NodeId} {occupants : Occupants NodeId}
    (hnodup : (allKids kids).Nodup) (hroles : (kids.map Prod.fst).Nodup)
    (h : Occupies kids old place)
    (hset : occupants = (kidsAt place.role kids).map (instead old id)) :
    setKids place.role occupants kids = mapKids (instead old id) kids := by
  induction kids with
  | nil => rfl
  | cons entry rest ih =>
    obtain ⟨r, first⟩ := entry
    rw [allKids_cons, nodup_append] at hnodup
    obtain ⟨_, hrest, hacross⟩ := hnodup
    have hsame : old ∉ allKids rest → mapKids (instead old id) rest = rest := fun hfree => by
      conv_rhs => rw [← mapKids_id rest]
      exact mapKids_congr fun c hc => instead_ne fun heq => hfree (heq ▸ hc)
    by_cases hrole : r = place.role
    · subst hrole
      have hmem : old ∈ first.toList := by
        rcases h with ⟨_, hone⟩ | ⟨before, after, _, hmany⟩
        · simp only [kidsAt, if_true] at hone
          simp [hone, Occupants.toList]
        · simp only [kidsAt, if_true] at hmany
          simp [hmany, Occupants.toList]
      have hfree : old ∉ allKids rest := fun hbad => hacross old hmem old hbad rfl
      simp only [setKids, if_true, mapKids, map_cons]
      rw [hset]
      simp only [kidsAt, if_true]
      congr 1
      exact (hsame hfree).symm
    · have hoccupies : Occupies rest old place := by
        simpa only [Occupies, kidsAt, hrole, if_false] using h
      have hmem : old ∈ allKids rest := by
        apply (kidsAt_sublist_allKids place.role rest).subset
        rcases hoccupies with ⟨_, hone⟩ | ⟨before, after, _, hmany⟩
        · simp [hone, Occupants.toList]
        · simp [hmany, Occupants.toList]
      have hfree : ∀ c ∈ first.toList, instead old id c = c := fun c hc =>
        instead_ne fun heq => hacross c hc old hmem heq
      have hfirst : first.map (instead old id) = first := by
        rw [Occupants.map_congr hfree]
        cases first <;> simp [Occupants.map]
      have hset' : occupants = (kidsAt place.role rest).map (instead old id) := by
        simpa only [kidsAt, hrole, if_false] using hset
      simp only [setKids, hrole, if_false, mapKids, map_cons, hfirst]
      congr 1
      exact ih hrest (List.Nodup.of_cons hroles) hoccupies hset'

/-- From one tree to the next, nodes have been replaced by new ones: the replacement of a node takes
its place among the children of others, and the node itself loses its parent.  This is said of nodes
that stand; nothing is asked of the others. -/
structure Renewed (f : NodeId → NodeId) (s t : Tree) : Prop where
  undisturbed : ∀ D, Spared D s t
  kept : ∀ a, s.Standing a → f a = a →
    t.node a = { s.node a with kids := mapKids f (s.node a).kids }
  gone : ∀ a, s.Standing a → f a ≠ a →
    t.node a = { s.node a with kids := mapKids f (s.node a).kids, parent := none }
  new : ∀ a, s.Has a → f a ≠ a → t.Standing (f a) ∧ ∀ b, t.Beneath (f a) b → ¬s.Has b

namespace Renewed

theorem refl (t : Tree) : Renewed (fun c => c) t t where
  undisturbed := fun D => Spared.refl D t
  kept := fun a _ _ => by simp
  gone := fun a _ hne => absurd rfl hne
  new := fun a _ hne => absurd rfl hne

section

variable (h : Renewed f s t) (ha : s.Standing a)

include h ha

theorem kids_eq : (t.node a).kids = mapKids f (s.node a).kids := by
  by_cases hfix : f a = a
  · rw [h.kept a ha hfix]
  · rw [h.gone a ha hfix]

theorem shape_eq : t.shape a = s.shape a := by
  by_cases hfix : f a = a
  · rw [Tree.shape, h.kept a ha hfix]
    rfl
  · rw [Tree.shape, h.gone a ha hfix]
    rfl

theorem kind_eq : t.kind a = s.kind a :=
  congrArg Shape.kind (h.shape_eq ha)

theorem only?_eq (role : Role) : t.only? a role = (s.only? a role).map f := by
  simp only [only?, Node.kid, h.kids_eq ha, kidsAt_mapKids, Occupants.one?_map]

/-- The children of an old node are the images of those it had. -/
theorem children_eq : t.children a = (s.children a).map f := by
  simp only [children, Node.children, h.kids_eq ha, allKids_mapKids]

theorem parent_gone (hne : f a ≠ a) : t.parent a = none := by
  rw [Tree.parent, h.gone a ha hne]

theorem parent_kept (hfix : f a = a) : t.parent a = s.parent a := by
  rw [Tree.parent, h.kept a ha hfix]
  rfl

end

section

variable (h : Renewed f s t)

include h

theorem has (ha : s.Has a) : t.Has a :=
  (h.undisturbed fun _ => False).keeps.has ha

theorem image_new (ha : s.Has a) (hne : f a ≠ a) : ¬s.Has (f a) :=
  (h.new a ha hne).2 _ Beneath.refl

theorem has_image (ha : s.Has a) : t.Has (f a) := by
  by_cases hfix : f a = a
  · rw [hfix]
    exact h.has ha
  · exact (h.new a ha hfix).1.has

theorem standing (ha : s.Standing a) : t.Standing a :=
  (h.undisturbed fun _ => False).standing a ha id

theorem beneath_back (ha : s.Standing a) (hb : s.Has b) (hab : t.Beneath a b) : s.Beneath a b :=
  ((h.undisturbed fun _ => False).beneath a b ha id hab hb).elim id False.elim

end

theorem of_same_nodes (hundisturbed : ∀ D, Spared D s t) (hnode : ∀ a, t.node a = s.node a) :
    Renewed (fun c => c) s t where
  undisturbed := hundisturbed
  kept := fun a _ _ => by simp [hnode]
  gone := fun a _ hne => absurd rfl hne
  new := fun a _ hne => absurd rfl hne

theorem fixed_of_comp (hst : Renewed f s t) (htu : Renewed g t u) (ha : s.Has a) (h : g (f a) = a) :
    f a = a := by
  by_contra hne
  by_cases hfix : g (f a) = f a
  · exact hne (hfix.symm.trans h)
  · refine htu.image_new (hst.has_image ha) hfix ?_
    rw [h]
    exact hst.has ha

theorem trans (hst : Renewed f s t) (htu : Renewed g t u) : Renewed (fun c => g (f c)) s u where
  undisturbed := fun D => (hst.undisturbed D).trans (htu.undisturbed D) fun _ _ hD => hD
  kept := by
    intro a ha hfix
    have hf := hst.fixed_of_comp htu ha.has hfix
    rw [hf] at hfix
    rw [htu.kept a (hst.standing ha) hfix, hst.kept a ha hf]
    simp only [mapKids_mapKids]
  gone := by
    intro a ha hne
    by_cases hf : f a = a
    · rw [hf] at hne
      rw [htu.gone a (hst.standing ha) hne, hst.kept a ha hf]
      simp only [mapKids_mapKids]
    · have hnode := hst.gone a ha hf
      by_cases hg : g a = a
      · rw [htu.kept a (hst.standing ha) hg, hnode]
        simp only [mapKids_mapKids]
      · rw [htu.gone a (hst.standing ha) hg, hnode]
        simp only [mapKids_mapKids]
  new := by
    intro a ha hne
    by_cases hf : f a = a
    · rw [hf] at hne ⊢
      obtain ⟨hstanding, hbelow⟩ := htu.new a (hst.has ha) hne
      exact ⟨hstanding, fun b hb hold => hbelow b hb (hst.has hold)⟩
    · obtain ⟨hstanding, hbelow⟩ := hst.new a ha hf
      by_cases hg : g (f a) = f a
      · rw [hg]
        refine ⟨htu.standing hstanding, fun b hb hold => ?_⟩
        exact hbelow b (htu.beneath_back hstanding (hst.has hold) hb) hold
      · obtain ⟨hstanding', hbelow'⟩ := htu.new (f a) hstanding.has hg
        exact ⟨hstanding', fun b hb hold => hbelow' b hb (hst.has hold)⟩

theorem single (hundisturbed : ∀ D, Spared D s t) (hp : s.Standing p) (hold : old ∈ s.children p)
    (hnode : t.node p = { s.node p with kids := mapKids (instead old id) (s.node p).kids })
    (hframe : ∀ a, s.Has a → a ≠ old → a ≠ p → t.node a = s.node a)
    (hgone : t.node old = { s.node old with parent := none }) (hid : t.Standing id)
    (hnew : ∀ b, t.Beneath id b → ¬s.Has b) : Renewed (instead old id) s t := by
  have hsame : ∀ a, old ∉ s.children a →
    mapKids (instead old id) (s.node a).kids = (s.node a).kids := by
    intro a hfree
    conv_rhs => rw [← mapKids_id (s.node a).kids]
    exact mapKids_congr fun c hc => instead_ne fun heq => hfree (heq ▸ hc)
  have hmoved : ∀ {a}, instead old id a ≠ a → a = old := fun {a} hne => by
    by_contra hkeep
    exact hne (instead_ne hkeep)
  constructor
  · exact hundisturbed
  · intro a ha hfix
    have hkeep : a ≠ old := by
      rintro rfl
      rw [instead_self] at hfix
      exact hnew id Beneath.refl (hfix ▸ ha.has)
    by_cases heq : a = p
    · exact heq ▸ hnode
    · rw [hframe a ha.has hkeep heq, hsame a]
      intro hbad
      have hparents : some a = some p :=
        (ha.intact.parent_child hbad).symm.trans (hp.intact.parent_child hold)
      exact heq (Option.some.inj hparents)
  · intro a ha hne
    rw [hmoved hne, hgone, hsame old (hp.intact.child hold).not_own_child]
  · intro a ha hne
    rw [hmoved hne, instead_self]
    exact ⟨hid, hnew⟩

end Renewed

theorem Edited.new {parts : List Part} {gone : List NodeId} (h : Edited s t p [] parts gone ids)
    (hid : id ∈ ids) (hb : t.Beneath id b) : ¬s.Has b :=
  fun hold => not_drawn_nil (h.region id hid b hb hold)

/-! ## Replacements -/

theorem replace_kids {new : Draft} (htidy : t.Tidy) (hparent : t.parent old = some p) (hp : t.Has p)
    (hnodup : (t.children p).Nodup) (hhas : (plant (t.detach old) (some p) new).2.Has p)
    (hsame : (plant (t.detach old) (some p) new).2.node p = t.node p)
    (h : t.replace old new = .ok (id, t')) :
    t'.node p = { t.node p with kids := mapKids (instead old id) (t.node p).kids } := by
  unfold replace at h
  cases hplace : t.place old with
  | error fault => simp [hplace] at h
  | ok place =>
    obtain ⟨hparent', hoccupies⟩ := place_occupies htidy hplace
    have hup : p = place.parent := by
      rw [hparent] at hparent'
      exact Option.some.inj hparent'
    subst hup
    have hset : ∀ occupants,
        occupants = (kidsAt place.role (t.node place.parent).kids).map (instead old id) →
        ((plant (t.detach old) (some place.parent) new).2.setRole place.parent place.role
            occupants).node place.parent =
          { t.node place.parent with
            kids := mapKids (instead old id) (t.node place.parent).kids } := by
      intro occupants hoccupants
      rw [setRole, node_update_self hhas, hsame,
        setKids_eq_mapKids hnodup (htidy.roles_nodup hp) hoccupies hoccupants]
    rw [hplace] at h
    rcases hoccupies with ⟨hindex, hone⟩ | ⟨before, after, hindex, hmany⟩
    · simp only [hindex, Except.ok.injEq, Prod.mk.injEq] at h
      obtain ⟨rfl, rfl⟩ := h
      exact hset _ (by simp [hone, Occupants.map, instead_self])
    · simp only [hindex, Except.ok.injEq, Prod.mk.injEq] at h
      obtain ⟨rfl, rfl⟩ := h
      refine hset _ ?_
      have hlist : (before ++ old :: after).Nodup := by
        have hsub := kidsAt_sublist_allKids place.role (t.node place.parent).kids
        rw [hmany] at hsub
        exact hnodup.sublist hsub
      rw [nodup_append, nodup_cons] at hlist
      obtain ⟨_, ⟨hafter, _⟩, hbefore⟩ := hlist
      rw [Node.kidList, Node.kid, hsame, hmany]
      simp only [Occupants.toList, Occupants.map, map_append, map_cons, instead_self,
        map_instead_of_not_mem hafter,
        map_instead_of_not_mem fun hmem => hbefore old hmem old mem_cons_self rfl]
      simp

theorem replace_holder {new : Draft} {tops : List NodeId} (htidy : t.Tidy) (hold : t.Standing old)
    (hparent : t.parent old = some p) (hlaid : new.Laid t)
    (hsupplied : t.Supplied p [old] tops new.parts) (h : t.replace old new = .ok (id, t')) :
    t'.node p = { t.node p with kids := mapKids (instead old id) (t.node p).kids } := by
  obtain ⟨hpS, _⟩ := hold.of_parent hparent
  have hplanted := plant_planted (t.detachAll [old]) (some p) new (hsupplied.ready.detached [old]).1
    (Draft.Laid.transfer (Keeps.detachAll t [old]) new hlaid)
  obtain ⟨_, role, before, after, hparent', hexchanged⟩ := replace_exchanged htidy h
  rw [hparent] at hparent'
  cases hparent'
  exact replace_kids htidy hparent hpS.has hpS.intact.nodup
    (hplanted.keeps.has ((has_detachAll t _ _).mpr hpS.has))
    (hsupplied.node_parent hpS hexchanged.list_eq hplanted) h

theorem replace_renewed {new : Draft} (htidy : t.Tidy) (hold : t.Standing old) (hlaid : new.Laid t)
    (hparts : new.parts = []) (h : t.replace old new = .ok (id, t')) :
      Renewed (instead old id) t t' := by
  obtain ⟨p, hparent, hpS, hedit⟩ := replace_edited htidy hold h
  have hsupplied : t.Supplied p [old] [] new.parts := hparts ▸ Supplied.nil t p [old]
  have hedited := hedit hlaid [] hsupplied
  exact Renewed.single hedited.undisturbed hpS (hold.of_parent hparent).2
    (replace_holder htidy hold hparent hlaid hsupplied h)
    (fun a ha hne => hedited.frame a ha not_drawn_nil (by simpa using hne))
    (hedited.detached old (by simp) not_drawn_nil) (hedited.standing hpS (by simp))
    fun b hb => hedited.new (by simp) hb

theorem setKids_setKids {α : Type} (role : Role) (first second : Occupants α) (kids : Kids α) :
    setKids role second (setKids role first kids) = setKids role second kids := by
  induction kids with
  | nil => rfl
  | cons entry rest ih =>
    obtain ⟨r, occupants⟩ := entry
    by_cases hrole : r = role
    · simp [setKids, hrole]
    · simp [setKids, hrole, ih]

theorem place_of_kid (htidy : t.Tidy) (hp : t.Standing p)
    (hone : kidsAt role (t.node p).kids = .one old) (h : t.place old = .ok place) :
    place = ⟨p, role, none⟩ := by
  have hmem : old ∈ (kidsAt role (t.node p).kids).toList := by simp [hone, Occupants.toList]
  have hchild : old ∈ t.children p := (kidsAt_sublist_allKids role (t.node p).kids).subset hmem
  obtain ⟨hparent, _, hoccupies⟩ := place_ok htidy (hp.child hchild) h
  obtain ⟨up, r, index⟩ := place
  have hup : up = p := by
    rw [hp.intact.parent_child hchild] at hparent
    exact (Option.some.inj hparent).symm
  subst hup
  have hrole : r = role := by
    by_contra hne
    refine not_mem_other_role hp.intact.nodup (Ne.symm hne) hmem ?_
    rcases hoccupies with ⟨_, hother⟩ | ⟨before, after, _, hother⟩
    · simp only at hother
      simp [hother, Occupants.toList]
    · simp only at hother
      simp [hother, Occupants.toList]
  subst hrole
  rcases hoccupies with ⟨hindex, _⟩ | ⟨before, after, _, hother⟩
  · simp only at hindex
    rw [hindex]
  · rw [hone] at hother
    exact absurd hother (by simp)

theorem exchange_renewed {new : Draft} {cut : Tree} (htidy : t.Tidy) (hp : t.Standing p)
    (honly : (t.node p).kid role = .one old) (hremove : t.remove old = .ok cut)
    (hput : cut.put p role (some new) = .ok t') (hlaid : new.Laid t) (hparts : new.parts = []) :
    ∃ id, t'.only? p role = some id ∧ ¬t.Has id ∧ Renewed (instead old id) t t' := by
  have hone : kidsAt role (t.node p).kids = .one old := honly
  have hchild : old ∈ t.children p := by
    apply (kidsAt_sublist_allKids role (t.node p).kids).subset
    simp [hone, Occupants.toList]
  obtain ⟨up, hup, _, hremoved⟩ := remove_edited htidy (hp.child hchild) hremove
  have hsame : up = p := by
    rw [hp.intact.parent_child hchild] at hup
    exact (Option.some.inj hup).symm
  subst hsame
  have hne : up ≠ old := fun heq => hp.intact.not_own_child (heq ▸ hchild)
  have hrole : (t.node up).kids.any (fun entry => entry.1 == role) = true :=
    any_role_of_kidsAt_ne_empty old (by simp [hone, Occupants.toList])
  have hcut : cut.node up = { t.node up with kids := setKids role .empty (t.node up).kids } := by
    unfold remove at hremove
    cases hplace : t.place old with
    | error fault => simp [hplace] at hremove
    | ok place =>
      rw [hplace, place_of_kid htidy hp hone hplace] at hremove
      simp only [Except.ok.injEq] at hremove
      rw [← hremove, detach, node_setParent_ne _ hne, setRole, node_update_self hp.has]
  have hempty : (cut.node up).kidList role = [] := by
    rw [Node.kidList, Node.kid, hcut, kidsAt_setKids_self hrole, Occupants.toList]
  have hup' := hremoved.standing_parent hp
  obtain ⟨id, hkid, hnode, hfilled⟩ :=
    put_edited hup' hput (Draft.Laid.transfer hremoved.spared.keeps new hlaid) []
    (hparts ▸ Supplied.nil cut up _)
  rw [hempty] at hfilled
  have hnew : ∀ b, t'.Beneath id b → ¬t.Has b := fun b hb hold =>
    hfilled.new (by simp) hb (hremoved.spared.keeps.has hold)
  refine ⟨id, by rw [only?, hkid]; rfl, hnew id Beneath.refl, ?_⟩
  refine Renewed.single ?_ hp hchild ?_ ?_ ?_ (hfilled.standing hup' (by simp)) hnew
  · exact fun D => (hremoved.undisturbed D).trans (hfilled.undisturbed D) fun _ _ hD => hD
  · rw [hnode, hcut]
    simp only [setKids_setKids]
    have hoccupies : Occupies (t.node up).kids old ⟨up, role, none⟩ := Or.inl ⟨rfl, hone⟩
    have hoccupants : Occupants.one id = (kidsAt role (t.node up).kids).map (instead old id) := by
      simp [hone, Occupants.map, instead_self]
    rw [setKids_eq_mapKids hp.intact.nodup (htidy.roles_nodup hp.has) hoccupies hoccupants]
  · intro a ha hold hup
    rw [hfilled.frame a (hremoved.spared.keeps.has ha) not_drawn_nil (by simp) hup,
      hremoved.frame a ha not_drawn_nil (by simpa using hold) hup]
  · rw [hfilled.frame old (hremoved.spared.keeps.has (hp.child hchild).has) not_drawn_nil (by simp)
      hne.symm, hremoved.detached old (by simp) not_drawn_nil]

end Tree

end UnitySharp
