import UnitySharp.Proofs.Pass.Run

/-!
# Edits in passes

A node is replaced by something new, or by something that keeps parts of what was beneath it; its
reach bounds what that disturbs.  Edits of nodes that stand aside from each other do not interfere.
-/

namespace UnitySharp

open UnitySharp.Tree List

variable {ε α β : Type} {id old p : NodeId} {ks : List NodeId} {role : Role} {news : List Draft}
  {new : Draft}

attribute [simp] Draft.parts partsOfKids partsOfOccupants partsOfAll partsOfAll_map_kept
attribute [simp] Draft.Laid KidsLaid OccupantsLaid AllLaid allLaid_map_kept

/-! ## Answers and lists, item by item -/

theorem Except.bind_eq_ok {first : Except ε α} {next : α → Except ε β} {result : β}
    (h : (first >>= next) = .ok result) :
    ∃ middle, first = .ok middle ∧ next middle = .ok result := by
  cases first with
  | error fault => exact absurd h (by simp [bind, Except.bind])
  | ok middle => exact ⟨middle, rfl, h⟩

theorem Except.map_eq_ok {first : Except ε α} {f : α → β} {result : β}
    (h : first.map f = .ok result) :
    ∃ middle, first = .ok middle ∧ f middle = result := by
  cases first with
  | error fault => exact absurd h (by simp [Except.map])
  | ok middle => exact ⟨middle, rfl, by simpa [Except.map] using h⟩

theorem exists_of_forall₂ {R : α → β → Prop} {xs : List α} {ys : List β} {y : β}
    (h : List.Forall₂ R xs ys) (hy : y ∈ ys) : ∃ x ∈ xs, R x y := by
  induction h with
  | nil => exact absurd hy (by simp)
  | cons hfirst _ ih =>
    rcases mem_cons.mp hy with rfl | hy
    · exact ⟨_, mem_cons_self, hfirst⟩
    · obtain ⟨x, hx, hxy⟩ := ih hy
      exact ⟨x, mem_cons_of_mem _ hx, hxy⟩

theorem pairwise_of_forall₂ {R : α → β → Prop} {S : α → α → Prop} {T : β → β → Prop} {xs : List α}
    {ys : List β} (h : List.Forall₂ R xs ys) (hxs : xs.Pairwise S)
    (himp : ∀ x x' y y', x ∈ xs → x' ∈ xs → S x x' → R x y → R x' y' → T y y') : ys.Pairwise T := by
  induction h with
  | nil => exact List.Pairwise.nil
  | @cons x y xs ys hfirst hrest ih =>
    obtain ⟨hx, hxs⟩ := pairwise_cons.mp hxs
    refine pairwise_cons.mpr ⟨fun y' hy' => ?_, ih hxs fun z z' w w' hz hz' =>
      himp z z' w w' (mem_cons_of_mem _ hz) (mem_cons_of_mem _ hz')⟩
    obtain ⟨x', hx', hxy⟩ := exists_of_forall₂ hrest hy'
    exact himp x x' y y' mem_cons_self (mem_cons_of_mem _ hx') (hx x' hx') hfirst hxy

theorem forall₂_of_mapM {f : α → Except ε β} {items : List α} {results : List β}
    (h : items.mapM f = .ok results) :
    List.Forall₂ (fun item result => f item = .ok result) items results := by
  induction items generalizing results with
  | nil =>
    cases h
    exact .nil
  | cons item rest ih =>
    rw [mapM_cons] at h
    obtain ⟨first, hfirst, h⟩ := Except.bind_eq_ok h
    obtain ⟨others, hothers, h⟩ := Except.bind_eq_ok h
    cases h
    exact .cons hfirst (ih hothers)

def Draft.IsNew (draft : Draft) : Prop :=
  draft.parts = [] ∧ ∀ u, draft.Laid u

namespace Tree

variable {s t u t' : Tree} {a b c : NodeId} {parts : List Part} {gone : List NodeId}
  {holds : NodeKind → Bool}

/-! ## Children as parts -/

theorem listed_sublist (t : Tree) (id : NodeId) (role : Role) :
    (t.listed id role).Sublist (t.children id) :=
  kidsAt_sublist_allKids role (t.node id).kids

theorem children_of_sole_role (hlaid : t.Laid id)
    (hsole : (t.kind id).layout.map Prod.fst = [role]) :
    t.children id = t.listed id role := by
  rw [Laid, hsole] at hlaid
  obtain ⟨entry, hkids, rfl⟩ := map_eq_singleton_iff.mp hlaid
  simp [children, Node.children, listed, Node.kidList, Node.kid, hkids, allKids, kidsAt]

theorem role_of_block (hlaid : t.Laid id) (hkind : t.kind id = .block)
    (hmem : c ∈ (kidsAt role (t.node id).kids).toList) : role = .statements := by
  rw [Tree.Laid, hkind] at hlaid
  obtain ⟨entry, hkids, hrole⟩ : ∃ entry, (t.node id).kids = [entry] ∧
    entry.1 = Role.statements := by
    simpa [Tree.roles, NodeKind.layout, map_eq_singleton_iff] using hlaid
  rw [hkids, kidsAt] at hmem
  split at hmem
  · rename_i heq
    rw [← heq, hrole]
  · exact absurd hmem (by simp [kidsAt, Occupants.toList])

theorem listed_eq_of_many {prior : List NodeId} (h : kidsAt role (t.node id).kids = .many prior) :
    t.listed id role = prior := by
  simp only [listed, Node.kidList, Node.kid, h, Occupants.toList]

theorem kid_of_only? (h : t.only? id role = some c) : (t.node id).kid role = .one c := by
  unfold only? at h
  cases hkid : (t.node id).kid role with
  | empty => simp [hkid, Occupants.one?] at h
  | one child => simpa [hkid, Occupants.one?] using h
  | many children => simp [hkid, Occupants.one?] at h

theorem listed_of_only? (h : t.only? id role = some c) : t.listed id role = [c] := by
  rw [listed, Node.kidList, kid_of_only? h, Occupants.toList]

theorem Exchanged.listed_eq {before after ids tops : List NodeId}
    (h : Exchanged t u p role before gone after news ids) (hp : t.Standing p)
    (hlaid : AllLaid t news) (hsupplied : t.Supplied p gone tops (partsOfAll news)) :
    u.listed p role = before ++ ids ++ after := by
  have hplanted := h.planted hlaid hsupplied.ready
  have hnode := hsupplied.node_parent hp h.list_eq hplanted
  obtain ⟨occupants, rfl, hlist⟩ := h.result
  have hhas : (plantAll (t.detachAll gone) p news).2.Has p :=
    hplanted.keeps.has ((has_detachAll t gone p).mpr hp.has)
  rw [listed, Node.kidList, kid_setRole_self hhas (by rw [hnode]; exact h.role_mem)]
  exact hlist (by rw [hnode])

theorem mem_children_of_only? (h : t.only? id role = some c) : c ∈ t.children id := by
  apply (t.listed_sublist id role).subset
  rw [listed_of_only? h]
  exact mem_singleton_self c

theorem only?_ne {first second : NodeId} {other : Role} (hid : t.Intact id) (hne : role ≠ other)
    (hfirst : t.only? id role = some first) (hsecond : t.only? id other = some second) :
      first ≠ second := by
  rintro rfl
  have hmem : ∀ {r}, t.only? id r = some first → first ∈ (kidsAt r (t.node id).kids).toList :=
    fun {r} h => by
    have hlisted := listed_of_only? h
    simp only [listed, Node.kidList, Node.kid] at hlisted
    simp [hlisted]
  exact not_mem_other_role hid.nodup hne (hmem hfirst) (hmem hsecond)

def Aside (t : Tree) (a b : NodeId) : Prop :=
  ¬t.Beneath a b ∧ ¬t.Beneath b a

theorem Aside.symm (h : t.Aside a b) : t.Aside b a :=
  ⟨h.2, h.1⟩

theorem Aside.apart (h : t.Aside a b) (ha : t.Intact a) (hb : t.Intact b) : t.Apart a b := by
  intro c hac hbc
  rcases ha.comparable hb hac hbc with hab | hba
  · exact h.1 hab
  · exact h.2 hba

theorem Apart.aside (h : t.Apart a b) : t.Aside a b :=
  ⟨fun hab => h b hab Beneath.refl, fun hba => h a Beneath.refl hba⟩

theorem Intact.children_apart (h : t.Intact id) (hsub : ks.Sublist (t.children id)) :
    ks.Pairwise t.Apart := by
  have hnodup : ks.Nodup := h.nodup.sublist hsub
  refine hnodup.imp_of_mem ?_
  intro a b ha hb hne c hac
  exact h.siblings_apart (hsub.subset ha) (hsub.subset hb) hne hac

theorem partsReady_wholes (hintact : ∀ k ∈ ks, t.Intact k) (hapart : ks.Pairwise t.Apart) :
    PartsReady t (ks.map .whole) := by
  constructor
  · intro part hpart
    obtain ⟨k, hk, rfl⟩ := mem_map.mp hpart
    exact (hintact k hk).ready
  · rw [pairwise_map]
    refine hapart.imp ?_
    intro a b hab c hac hbc
    exact hab c hac.1 hbc.1

/-- The parts of a draft are intact subtrees of a node. -/
structure TakenFrom (t : Tree) (top : NodeId) (parts : List Part) : Prop where
  ready : PartsReady t parts
  beneath : ∀ part ∈ parts, ∀ a, part.Covers t a → t.Beneath top a

theorem TakenFrom.of_wholes (h : t.Intact id) (hbelow : ∀ k ∈ ks, t.Beneath id k)
    (hapart : ks.Pairwise t.Apart) :
    t.TakenFrom id (ks.map .whole) where
  ready := partsReady_wholes (fun k hk => h.beneath (hbelow k hk)) hapart
  beneath := by
    intro part hpart a hcovers
    obtain ⟨k, hk, rfl⟩ := mem_map.mp hpart
    exact (hbelow k hk).trans hcovers.1

theorem TakenFrom.of_children (h : t.Intact id) (hsub : ks.Sublist (t.children id)) :
    t.TakenFrom id (ks.map .whole) :=
  of_wholes h (fun _ hk => Beneath.of_child (hsub.subset hk)) (h.children_apart hsub)

theorem TakenFrom.self (h : t.Intact id) : t.TakenFrom id [.whole id] :=
  @of_wholes id [id] t h (by simp; exact Beneath.refl) (pairwise_singleton _ _)

theorem TakenFrom.child (h : t.Intact id) (hchild : c ∈ t.children id) :
    t.TakenFrom id [.whole c] :=
  @of_children id [c] t h (singleton_sublist.mpr hchild)

theorem TakenFrom.of_grandchildren {ns : List NodeId} (h : t.Intact id) (hc : c ∈ t.children id)
    (hks : ks.Sublist (t.children c)) (hns : ns.Sublist (t.children id)) (hfree : c ∉ ns) :
    t.TakenFrom id ((ks ++ ns).map .whole) := by
  refine of_wholes h ?_ ?_
  · intro k hk
    rcases mem_append.mp hk with hk | hk
    · exact (Beneath.of_child (hks.subset hk)).below_child hc
    · exact Beneath.of_child (hns.subset hk)
  · refine pairwise_append.mpr ⟨(h.child hc).children_apart hks, h.children_apart hns, ?_⟩
    intro k hk n hn a hka hna
    have hne : c ≠ n := by
      intro heq
      exact hfree (heq ▸ hn)
    exact h.siblings_apart hc (hns.subset hn) hne (hka.below_child (hks.subset hk)) hna

theorem Intact.aside_of_parentless (ha : t.Intact a) (hb : t.Intact b) (hna : t.parent a = none)
    (hnb : t.parent b = none) (hne : a ≠ b) : t.Aside a b :=
  ⟨fun hab => hne (ha.eq_of_parent_none hab hnb).symm, fun hba =>
    hne (hb.eq_of_parent_none hba hna)⟩

theorem Intact.aside_of_child (ha : t.Intact a) (hp : t.Intact p) (hna : t.parent a = none)
    (hoff : ¬t.Beneath a p) (hc : c ∈ t.children p) : t.Aside a c := by
  have hne : c ≠ a := by
    intro heq
    rw [← heq, hp.parent_child hc] at hna
    exact absurd hna (by simp)
  refine ⟨fun hac => hoff (ha.beneath_holder_of_child hp hc hac hne), fun hca => ?_⟩
  exact hne ((hp.child hc).eq_of_parent_none hca hna).symm

theorem Laid.children_eq_nil (h : t.Laid id) (hkind : (t.kind id).layout = []) :
    t.children id = [] := by
  rw [Laid, hkind] at h
  have hkids : (t.node id).kids = [] := map_eq_nil_iff.mp h
  rw [children, Node.children, hkids, allKids_nil]

/-! ## New drafts and copies -/

theorem partsOfOccupants_eq_flatMap (occupants : Occupants Draft) :
    partsOfOccupants occupants = occupants.toList.flatMap Draft.parts := by
  cases occupants <;> simp [Occupants.toList, partsOfAll_eq_flatMap]

theorem partsOfKids_eq_flatMap (kids : Kids Draft) :
    partsOfKids kids = (allKids kids).flatMap Draft.parts := by
  induction kids with
  | nil => rfl
  | cons entry rest ih =>
    rw [allKids_cons, flatMap_append, ← ih, ← partsOfOccupants_eq_flatMap]
    rfl

theorem occupantsLaid_iff (t : Tree) (occupants : Occupants Draft) :
    OccupantsLaid t occupants ↔ ∀ draft ∈ occupants.toList, draft.Laid t := by
  cases occupants <;> simp [Occupants.toList, allLaid_iff]

theorem kidsLaid_iff (t : Tree) (kids : Kids Draft) :
    KidsLaid t kids ↔ ∀ draft ∈ allKids kids, draft.Laid t := by
  induction kids with
  | nil => simp [allKids_nil]
  | cons entry rest ih =>
    rw [allKids_cons, forall_mem_append, ← ih, ← occupantsLaid_iff]
    rfl

theorem isNew_fresh {shape : Shape} {position : Option Position} {kids : Kids Draft}
    (hroles : kids.map Prod.fst = shape.kind.layout.map Prod.fst)
    (hkids : ∀ draft ∈ allKids kids, draft.IsNew) :
    (Draft.fresh shape position kids).IsNew := by
  constructor
  · rw [Draft.parts, partsOfKids_eq_flatMap, flatMap_eq_nil_iff]
    exact fun draft hdraft => (hkids draft hdraft).1
  · intro u
    refine ⟨hroles, (kidsLaid_iff u kids).mpr ?_⟩
    exact fun draft hdraft => (hkids draft hdraft).2 u

theorem copyWithin_isNew (htidy : t.Tidy) (hid : t.Intact id) (depth : Nat)
    (hdepth : t.Shallow depth id) :
    (t.copyWithin depth id).IsNew := by
  induction depth generalizing id with
  | zero => exact hdepth.elim
  | succ depth ih =>
    have hcopied : (Draft.fresh (t.node id).shape (t.node id).position
        (mapKids (t.copyWithin depth) (t.node id).kids)).IsNew := by
      refine isNew_fresh ((map_fst_mapKids _ _).trans (htidy id hid.has)) ?_
      rw [allKids_mapKids, forall_mem_map]
      exact fun c hc => ih (hid.child hc) (hdepth c hc)
    unfold copyWithin
    simp only
    split
    · exact hcopied
    · exact hcopied

/-- A copy of an intact subtree consists of new nodes. -/
theorem copy_isNew (htidy : t.Tidy) (hid : t.Intact id) : (t.copy id).IsNew :=
  copyWithin_isNew htidy hid _ hid.shallow

/-! ## Declarations -/

theorem declaration_laid (t : Tree) (symbol : Symbol) (type : Option Ty) {initializer : Draft}
    (position : Option Position) (h : initializer.Laid t) :
    (Draft.declaration symbol type (some initializer) position).Laid t := by
  cases type <;>
    simp [Draft.declaration, Draft.typeRef, Occupants.ofOption, Shape.kind, NodeKind.layout, h]

theorem declaration_parts (symbol : Symbol) (type : Option Ty) (initializer : Draft)
    (position : Option Position) :
    (Draft.declaration symbol type (some initializer) position).parts = initializer.parts := by
  cases type <;> simp [Draft.declaration, Draft.typeRef, Occupants.ofOption]

/-! ## Replacements -/

structure Replaced (t t' : Tree) (old id : NodeId) (parts : List Part) : Prop where
  spared : Spared (t.Reach old) t t'
  standing : t'.Standing id
  region : ∀ a, t'.Beneath id a → t.Has a → t.Reach old a
  covered : ∀ part ∈ parts, ∀ a, part.Covers t a → t'.Beneath id a
  parent_eq : ∀ p, t.parent old = some p → t'.parent p = t.parent p

theorem drawn_self_reach (hold : t.Intact old) (hparent : t.parent old = some p)
    (h : t.Drawn [old] a) :
    t.Reach old a := by
  obtain ⟨top, htop, hbelow⟩ := h
  rw [mem_singleton.mp htop] at hbelow
  by_cases heq : a = old
  · subst heq
    exact ⟨hbelow, by simp [hparent]⟩
  · exact Reach.of_within hold ⟨hbelow, heq⟩

theorem TakenFrom.supplied (h : t.TakenFrom old parts) (hp : t.Intact p)
    (hchild : old ∈ t.children p) :
    t.Supplied p [old] [old] parts where
  sources := by
    intro top htop
    rw [mem_singleton.mp htop]
    exact ⟨hp.child hchild, hp.not_beneath_of_child hchild, Or.inl (by simp)⟩
  ready := h.ready
  drawn := fun part hpart a hcovers => ⟨old, by simp, h.beneath part hpart a hcovers⟩

theorem replace_taken (htidy : t.Tidy) (hold : t.Standing old) (hlaid : new.Laid t)
    (htaken : t.TakenFrom old new.parts) (h : t.replace old new = .ok (id, t')) :
    Replaced t t' old id new.parts := by
  obtain ⟨p, hparent, hp, hedit⟩ := replace_edited htidy hold h
  have hedited := hedit hlaid [old] (htaken.supplied hp.intact (hold.of_parent hparent).2)
  constructor
  · exact hedited.spared.mono fun a _ hdrawn => drawn_self_reach hold.intact hparent hdrawn
  · exact hedited.standing hp (by simp)
  · intro a hbelow ha
    exact drawn_self_reach hold.intact hparent (hedited.region id (by simp) a hbelow ha)
  · intro part hpart a hcovers
    obtain ⟨other, hother, hbelow⟩ := hedited.covered part hpart a hcovers
    rwa [mem_singleton.mp hother] at hbelow
  · intro up hup
    rw [hparent] at hup
    exact Option.some.inj hup ▸ hedited.parent_eq

theorem replace_fresh (htidy : t.Tidy) (hold : t.Standing old) (hlaid : new.Laid t)
    (hparts : new.parts = []) (h : t.replace old new = .ok (id, t')) (D : NodeId → Prop) :
    Spared D t t' := by
  obtain ⟨p, _, _, hedit⟩ := replace_edited htidy hold h
  exact (hedit hlaid [] (hparts ▸ Supplied.nil t p [old])).undisturbed D

theorem Supplied.of_wholes
    (hks : ∀ k ∈ ks, t.Intact k ∧ ¬t.Beneath k p ∧ (k ∈ gone ∨ t.parent k = none))
    (haside : ks.Pairwise t.Aside) : t.Supplied p gone ks (ks.map .whole) where
  sources := hks
  ready := by
    refine partsReady_wholes (fun k hk => (hks k hk).1) (haside.imp_of_mem ?_)
    intro a b ha hb hab
    exact hab.apart (hks a ha).1 (hks b hb).1
  drawn := by
    intro part hpart a hcovers
    obtain ⟨k, hk, rfl⟩ := mem_map.mp hpart
    exact ⟨k, hk, hcovers.1⟩

theorem Supplied.of_moved (moved kept gone : List NodeId) (hp : t.Intact p)
    (hmoved : ∀ m ∈ moved, t.Intact m ∧ t.parent m = none ∧ ¬t.Beneath m p) (hnodup : moved.Nodup)
    (hkept : kept.Sublist (t.children p)) (hgone : ∀ k ∈ kept, k ∈ gone) :
    t.Supplied p gone (moved ++ kept) ((moved ++ kept).map .whole) := by
  refine Supplied.of_wholes ?_ ?_
  · intro k hk
    rcases mem_append.mp hk with hk | hk
    · obtain ⟨hintact, hnone, hoff⟩ := hmoved k hk
      exact ⟨hintact, hoff, Or.inr hnone⟩
    · have hchild := hkept.subset hk
      exact ⟨hp.child hchild, hp.not_beneath_of_child hchild, Or.inl (hgone k hk)⟩
  · refine pairwise_append.mpr ⟨?_, ?_, ?_⟩
    · refine hnodup.imp_of_mem ?_
      intro a b ha hb hne
      exact (hmoved a ha).1.aside_of_parentless (hmoved b hb).1 (hmoved a ha).2.1 (hmoved b hb).2.1
        hne
    · exact (hp.children_apart hkept).imp fun hab => hab.aside
    · intro m hm k hk
      obtain ⟨hintact, hnone, hoff⟩ := hmoved m hm
      exact hintact.aside_of_child hp hnone hoff (hkept.subset hk)

theorem ancestorWithin_standing {fuel : Nat} (hid : t.Standing id)
    (h : t.ancestorWithin holds fuel id = some p) :
    t.Standing p := by
  induction fuel generalizing id with
  | zero => simp [ancestorWithin] at h
  | succ fuel ih =>
    unfold ancestorWithin at h
    split at h
    · exact absurd h (by simp)
    · rename_i up hup
      have hstanding := (hid.of_parent hup).1
      split at h
      · cases h
        exact hstanding
      · exact ih hstanding h

theorem ancestor?_standing (hid : t.Standing id) (h : t.ancestor? holds id = some p) :
    t.Standing p :=
  ancestorWithin_standing hid h

/-! ## One change after another -/

theorem Spared.reach_after_within (hst : Spared (s.Within id) s t) (htu : Spared (t.Reach id) t u)
    (hid : s.Standing id) :
    Spared (s.Reach id) s u := by
  refine (hst.reach_of_within hid.intact).trans htu ?_
  intro a ha hreach
  rcases hst.beneath id a hid not_within_self hreach.1 ha with hbelow | hwithin
  · by_cases heq : a = id
    · subst heq
      refine ⟨hbelow, ?_⟩
      intro hnone
      exact hreach.2 (hst.top a hid not_within_self hnone)
    · exact Reach.of_within hid.intact ⟨hbelow, heq⟩
  · exact Reach.of_within hid.intact hwithin

theorem Replaced.spared_beneath (h : Replaced s t old id parts) (hc : t.Beneath id c)
    (htu : Spared (t.Reach c) t u) :
    Spared (s.Reach old) s u :=
  h.spared.trans htu fun a ha hreach => h.region a (hc.trans hreach.1) ha

theorem Spared.undisturbed_trans (hst : ∀ D, Spared D s t) (hc : s.Standing c)
    (htu : Spared (t.Reach c) t u) :
    Spared (s.Reach c) s u := by
  refine (hst _).trans htu ?_
  intro a ha hreach
  have hnothing : Spared (fun _ => False) s t := hst _
  rcases hnothing.beneath c a hc id hreach.1 ha with hbelow | hfalse
  · refine ⟨hbelow, fun hnone => hreach.2 ?_⟩
    exact hnothing.top a (hc.beneath hbelow) id hnone
  · exact hfalse.elim

theorem Spared.beneath_of_undisturbed (hst : ∀ D, Spared D s t) (ha : s.Standing a) (hb : s.Has b)
    (hab : t.Beneath a b) :
    s.Beneath a b :=
  ((hst fun _ => False).beneath a b ha id hab hb).elim id False.elim

theorem Standing.of_undisturbed (h : s.Standing id) (hst : ∀ D, Spared D s t) : t.Standing id :=
  (hst fun _ => False).standing id h fun hfalse => hfalse

theorem Spared.aside_standing (h : Spared (s.Reach a) s t) (hb : s.Standing b)
    (haside : s.Aside a b) : t.Standing b :=
  h.standing b hb fun hreach => haside.1 hreach.1

theorem Spared.aside_kept (h : Spared (s.Reach a) s t) (hb : s.Standing b) (hc : s.Has c)
    (hab : s.Aside a b) (hac : ¬s.Beneath a c) (hbc : ¬s.Beneath b c) : ¬t.Beneath b c := by
  intro hbelow
  rcases h.beneath b c hb (fun hreach => hab.1 hreach.1) hbelow hc with hbefore | hreach
  · exact hbc hbefore
  · exact hac hreach.1

end Tree

namespace Pass

variable {s : Session} {post : List NodeId → Session → Prop} {ground : Tree → Prop}

theorem coin_undisturbed {kind : BindingKind} {name : Name} {type : Option Ty}
    {post : Symbol → Session → Prop}
    (h : ∀ symbol after, (∀ D, Spared D s.tree after.tree) →
      (∀ other, after.tree.node other = s.tree.node other) → post symbol after) :
    Yields (Pass.coin kind name type) s post :=
  coin_yields fun symbol after hnodes hloose hroot =>
    h symbol after (fun _ => Spared.of_same_store hnodes hloose hroot) (node_congr hnodes hloose)

theorem replace_yields {post : NodeId → Session → Prop} (htidy : s.tree.Tidy)
    (hold : s.tree.Standing old) (hlaid : new.Laid s.tree) (htaken : s.tree.TakenFrom old new.parts)
    (h : ∀ id after, Replaced s.tree after.tree old id new.parts → post id after) :
    Yields (Pass.replace old new) s post :=
  Yields.edit fun id _ hreplace => h id _ (replace_taken htidy hold hlaid htaken hreplace)

theorem replace_fresh_yields {post : NodeId → Session → Prop} (htidy : s.tree.Tidy)
    (hold : s.tree.Standing old) (hlaid : new.Laid s.tree) (hparts : new.parts = [])
    (h : ∀ id after, (∀ D, Spared D s.tree after.tree) → post id after) :
      Yields (Pass.replace old new) s post :=
  Yields.edit fun id _ hreplace => h id _ (replace_fresh htidy hold hlaid hparts hreplace)

theorem remove_yields {post : Unit → Session → Prop} (htidy : s.tree.Tidy)
    (hid : s.tree.Standing id)
    (h : ∀ p after, s.tree.parent id = some p → Edited s.tree after.tree p [] [] [id] [] →
      post () after) :
    Yields (Pass.remove id) s post := by
  refine Yields.remove fun t hremove => ?_
  obtain ⟨p, hparent, _, hedited⟩ := remove_edited htidy hid hremove
  exact h p _ hparent hedited

theorem refill_yields {p : NodeId} {role : Role} {news : List Draft}
    {post : List NodeId → Session → Prop} (hp : s.tree.Standing p) (hlaid : AllLaid s.tree news)
    (h : ∀ prior ids after, kidsAt role (s.tree.node p).kids = .many prior →
      (∀ tops, s.tree.Supplied p prior tops (partsOfAll news) →
        Edited s.tree after.tree p tops (partsOfAll news) prior ids) → post ids after) :
    Yields (Pass.refill p role news) s post := by
  refine Yields.edit fun ids t hrefill => ?_
  obtain ⟨prior, hprior, hedited⟩ := refill_edited hp hrefill
  exact h prior ids _ hprior (hedited hlaid)

theorem refill_kept_yields (hp : s.tree.Standing p)
    (hsupplied : ∀ prior, s.tree.listed p role = prior → s.tree.Supplied p prior ks (ks.map .whole))
    (h : ∀ after, Edited s.tree after.tree p ks (ks.map .whole) (s.tree.listed p role) ks →
      post ks after) :
    Yields (Pass.refill p role (ks.map .kept)) s post := by
  refine Yields.edit fun ids t hrefill => ?_
  obtain ⟨prior, hprior, hedit⟩ := refill_edited hp hrefill
  have hlisted := listed_eq_of_many hprior
  have hids : ids = ks :=
    refill_kept (fun k hk => ((hsupplied prior hlisted).sources k hk).1.hasSlot) hrefill
    (hsupplied prior hlisted).ready
  rw [partsOfAll_map_kept] at hedit
  have hedited := hedit (allLaid_map_kept _ _) ks (hsupplied prior hlisted)
  rw [hids] at hedited ⊢
  exact h _ (hlisted ▸ hedited)

theorem clear_yields {p : NodeId} {role : Role} {post : List NodeId → Session → Prop}
    (hp : s.tree.Standing p)
    (h : ∀ ids after, (∀ D, Spared D s.tree after.tree) →
      (∀ c ∈ s.tree.listed p role, after.tree.parent c = none) → post ids after) :
    Yields (Pass.refill p role []) s post := by
  refine refill_yields hp trivial fun prior ids after hprior hedit => ?_
  have hedited := hedit [] (Supplied.nil s.tree p prior)
  refine h ids after hedited.undisturbed ?_
  intro c hc
  exact hedited.cut (listed_eq_of_many hprior ▸ hc) not_drawn_nil

theorem wrapInCast_yields {type : Ty} (htidy : s.tree.Tidy) (hid : s.tree.Standing id) :
    Yields (Pass.wrapInCast id type) s fun _ after =>
      Spared (s.tree.Reach id) s.tree after.tree := by
  refine Yields.bind (replace_yields htidy hid ?_ ?_ ?_)
  · simp [Draft.cast, Draft.typeRef, Shape.kind, NodeKind.layout]
  · simpa [Draft.cast, Draft.typeRef] using TakenFrom.self hid.intact
  · intro _ after hreplaced
    exact Yields.pure hreplaced.spared

theorem forM_yields {ground : Tree → Prop} [Steady ground] {items : List α} (node : α → NodeId)
    {action : α → Pass Unit} (hground : ground s.tree)
    (hstanding : ∀ item ∈ items, s.tree.Standing (node item))
    (haside : items.Pairwise fun x y => s.tree.Aside (node x) (node y))
    (h : ∀ item ∈ items, ∀ s, ground s.tree → s.tree.Standing (node item) →
      Yields (action item) s fun _ after => Spared (s.tree.Reach (node item)) s.tree after.tree) :
    Yields (items.forM action) s fun _ after =>
      Spared (fun a => ∃ item ∈ items, s.tree.Reach (node item) a) s.tree after.tree := by
  induction items generalizing s with
  | nil => exact Yields.pure (Spared.refl _ _)
  | cons item rest ih =>
    have hitem : s.tree.Standing (node item) := hstanding item mem_cons_self
    have hfirst := (pairwise_cons.mp haside).1
    refine Yields.bind ((h item mem_cons_self s hground hitem).mono ?_)
    intro _ middle hmiddle
    have hrest : ∀ other ∈ rest, middle.tree.Standing (node other) := fun other hother =>
      hmiddle.aside_standing (hstanding other (mem_cons_of_mem _ hother)) (hfirst other hother)
    have hasideAfter : rest.Pairwise fun x y => middle.tree.Aside (node x) (node y) := by
      refine (pairwise_cons.mp haside).2.imp_of_mem ?_
      intro x y hx hy hxy
      have hxS := hstanding x (mem_cons_of_mem _ hx)
      have hyS := hstanding y (mem_cons_of_mem _ hy)
      exact ⟨hmiddle.aside_kept hxS hyS.has (hfirst x hx) (hfirst y hy).1 hxy.1,
        hmiddle.aside_kept hyS hxS.has (hfirst y hy) (hfirst x hx).1 hxy.2⟩
    refine (ih (Steady.after_reach hground hitem hmiddle) hrest hasideAfter
      (fun other hother => h other (mem_cons_of_mem _ hother))).mono ?_
    intro _ after hafter
    refine (hmiddle.mono fun a _ hreach => ⟨item, mem_cons_self, hreach⟩).trans hafter ?_
    rintro a ha ⟨other, hother, hreach⟩
    -- An old node within reach of a later item was so before, or the first item has brought it
    -- there.
    have hotherS := hstanding other (mem_cons_of_mem _ hother)
    have hfree : ¬s.tree.Reach (node item) (node other) :=
      fun hbad => (hfirst other hother).1 hbad.1
    rcases hmiddle.beneath (node other) a hotherS hfree hreach.1 ha with hbelow | hdisturbed
    · by_cases hdisturbed : s.tree.Reach (node item) a
      · exact ⟨item, mem_cons_self, hdisturbed⟩
      · refine ⟨other, mem_cons_of_mem _ hother, hbelow, ?_⟩
        intro hnone
        exact hreach.2 (hmiddle.top a (hotherS.beneath hbelow) hdisturbed hnone)
    · exact ⟨item, mem_cons_self, hdisturbed⟩

theorem forM_children_yields {items : List α} (node : α → NodeId) {action : α → Pass Unit}
    (htidy : s.tree.Tidy) (hid : s.tree.Standing id)
    (hsub : (items.map node).Sublist (s.tree.children id))
    (h : ∀ item ∈ items, ∀ s, s.tree.Tidy → s.tree.Standing (node item) →
      Yields (action item) s fun _ after => Spared (s.tree.Reach (node item)) s.tree after.tree) :
    Yields (items.forM action) s fun _ after => Spared (s.tree.Within id) s.tree after.tree := by
  have hchild : ∀ item ∈ items, node item ∈ s.tree.children id := fun item hitem =>
    hsub.subset (mem_map_of_mem hitem)
  refine (forM_yields node htidy (fun item hitem => hid.child (hchild item hitem)) ?_ h).mono ?_
  · have hapart := hid.intact.children_apart hsub
    rw [pairwise_map] at hapart
    exact hapart.imp fun hxy => hxy.aside
  · intro _ after hafter
    refine hafter.mono ?_
    rintro a _ ⟨item, hitem, hreach⟩
    exact hreach.within_of_child hid.intact (hchild item hitem)

theorem descend_after [Steady ground] {reach : Tree → NodeId → NodeId → Prop}
    {visit : NodeId → Pass Unit} {middle : Session} (hvisit : VisitsOn ground reach visit)
    (hlocal : Local reach) (hground : ground s.tree) (hid : s.tree.Standing id)
    (hmiddle : Spared (s.tree.Within id) s.tree middle.tree) :
    Yields (descend visit id) middle fun _ after =>
      Spared (s.tree.Within id) s.tree after.tree :=
  (descend_yields hvisit hlocal (Steady.after_within hground hid hmiddle)
    (hid.of_within hmiddle)).mono fun _ _ hafter => hmiddle.trans_within hafter hid

end Pass

end UnitySharp
