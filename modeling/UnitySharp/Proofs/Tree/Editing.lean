import UnitySharp.Pass.Basic
import UnitySharp.Proofs.Tree.Edited
import UnitySharp.Proofs.Tree.WellLinked

/-!
# Edits keep a tree well linked

The seven operations on a tree, as data.  An operation that returns keeps a well linked tree well
linked, provided that what it puts in is made of distinct nodes that the root reaches through the
displaced nodes at most (`Edit.apply_wellLinked`).

A node that has been cut out may still list a node that lives elsewhere by now, and exchanging it
there would cut the wrong link (`Edit.put_beneath_detached`).  So the holder has to be part of the
tree, or the displaced nodes are not.
-/

namespace UnitySharp

open List

variable {t t' : Tree} {c id p : NodeId} {role : Role} {before after ids : List NodeId}
  {edit : Edit}

/-- An operation on a tree. -/
inductive Edit where
  | replace (old : NodeId) (new : Draft)
  | splice (old : NodeId) (news : List Draft)
  | remove (id : NodeId)
  | insertBefore (anchor : NodeId) (new : Draft)
  | insertAfter (anchor : NodeId) (new : Draft)
  | refill (parent : NodeId) (role : Role) (news : List Draft)
  | put (parent : NodeId) (role : Role) (new : Option Draft)

namespace Edit

def apply (t : Tree) : Edit → Except Fault Tree
  | .replace old new => (t.replace old new).map Prod.snd
  | .splice old news => (t.splice old news).map Prod.snd
  | .remove id => t.remove id
  | .insertBefore anchor new => (t.insertBefore anchor new).map Prod.snd
  | .insertAfter anchor new => (t.insertAfter anchor new).map Prod.snd
  | .refill parent role news => (t.refill parent role news).map Prod.snd
  | .put parent role new => t.put parent role new

def perform (edit : Edit) : Pass Unit :=
  Pass.edit fun t => (edit.apply t).map fun t => ((), t)

def news : Edit → List Draft
  | .replace _ new => [new]
  | .splice _ news => news
  | .remove _ => []
  | .insertBefore _ new => [new]
  | .insertAfter _ new => [new]
  | .refill _ _ news => news
  | .put _ _ new => new.toList

def holder (t : Tree) : Edit → Option NodeId
  | .replace old _ => t.parent old
  | .splice old _ => t.parent old
  | .remove id => t.parent id
  | .insertBefore anchor _ => t.parent anchor
  | .insertAfter anchor _ => t.parent anchor
  | .refill parent _ _ => some parent
  | .put parent _ _ => some parent

def displaced (t : Tree) : Edit → List NodeId
  | .replace old _ => [old]
  | .splice old _ => [old]
  | .remove id => [id]
  | .insertBefore _ _ => []
  | .insertAfter _ _ => []
  | .refill parent role _ => t.listed parent role
  | .put parent role _ => t.listed parent role

def Inserts (t : Tree) (edit : Edit) (a : NodeId) : Prop :=
  ∃ part ∈ partsOfAll edit.news, part.Covers t a

/-- What an operation puts in fits the tree: new nodes have the roles of their kinds, all nodes are
distinct, and the root reaches none of them except through a displaced node. -/
structure Fits (t : Tree) (edit : Edit) : Prop where
  laid : AllLaid t edit.news
  distinct : PartsReady t (partsOfAll edit.news)
  within : ∀ a, edit.Inserts t a → t.Reachable a →
    ∃ top ∈ edit.displaced t, t.Reachable top ∧ t.Beneath top a

end Edit

namespace Tree

variable {u v : Tree} {a b : NodeId} {gone : List NodeId} {news : List Draft}

theorem map_snd_eq_ok {α : Type} {result : Except Fault (α × Tree)}
    (h : result.map Prod.snd = .ok t') :
    ∃ answer, result = .ok (answer, t') := by
  cases result with
  | error fault => simp [Except.map] at h
  | ok pair =>
    obtain ⟨answer, after⟩ := pair
    simp only [Except.map, Except.ok.injEq] at h
    exact ⟨answer, by rw [h]⟩

theorem exchanged_of_apply (htidy : t.Tidy) (h : edit.apply t = .ok t') :
    ∃ p role before after ids, edit.holder t = some p ∧
      Exchanged t t' p role before (edit.displaced t) after edit.news ids := by
  cases edit with
  | replace old new =>
    obtain ⟨id, hreplace⟩ := map_snd_eq_ok h
    obtain ⟨p, role, before, after, hparent, hexchanged⟩ := replace_exchanged htidy hreplace
    exact ⟨p, role, before, after, [id], hparent, hexchanged⟩
  | splice old news =>
    obtain ⟨ids, hsplice⟩ := map_snd_eq_ok h
    obtain ⟨p, role, before, after, hparent, hexchanged⟩ := splice_exchanged htidy hsplice
    exact ⟨p, role, before, after, ids, hparent, hexchanged⟩
  | remove id =>
    obtain ⟨p, role, before, after, hparent, hexchanged⟩ := remove_exchanged htidy h
    exact ⟨p, role, before, after, [], hparent, hexchanged⟩
  | insertBefore anchor new =>
    obtain ⟨id, hinsert⟩ := map_snd_eq_ok h
    obtain ⟨p, role, before, after, hparent, hexchanged⟩ := insertBefore_exchanged htidy hinsert
    exact ⟨p, role, before, after, [id], hparent, hexchanged⟩
  | insertAfter anchor new =>
    obtain ⟨id, hinsert⟩ := map_snd_eq_ok h
    obtain ⟨p, role, before, after, hparent, hexchanged⟩ := insertAfter_exchanged htidy hinsert
    exact ⟨p, role, before, after, [id], hparent, hexchanged⟩
  | refill parent role news =>
    obtain ⟨ids, hrefill⟩ := map_snd_eq_ok h
    exact ⟨parent, role, [], [], ids, rfl, (refill_exchanged hrefill).2⟩
  | put parent role new =>
    obtain ⟨ids, hexchanged⟩ := put_exchanged h
    exact ⟨parent, role, [], [], ids, rfl, hexchanged⟩

/-! ## Exchanges under a node of the tree -/

def Spare (t : Tree) (gone : List NodeId) (a : NodeId) : Prop :=
  t.Reachable a → t.Drawn gone a

section

variable (h : Exchanged t t' p role before gone after news ids) (hlaid : AllLaid t news)
  (hready : PartsReady t (partsOfAll news))

include h

theorem Exchanged.child_of_gone (hc : c ∈ gone) : c ∈ t.children p := by
  apply (kidsAt_sublist_allKids role (t.node p).kids).subset
  rw [h.list_eq]
  simp [hc]

variable (hlinked : t.WellLinked) (hp : t.Reachable p)

include hlinked hp

theorem Exchanged.not_drawn_of_above (ha : t.Beneath a p) : ¬t.Drawn gone a := by
  rintro ⟨top, htop, hbelow⟩
  have hintact := hlinked.intact.beneath hp
  exact hintact.not_beneath_of_child (h.child_of_gone htop) (hbelow.trans ha)

variable (hspare : ∀ part ∈ partsOfAll news, ∀ a, part.Covers t a → t.Spare gone a)

include hlaid hready hspare

theorem Exchanged.graft : ∃ first last kids, t' = (plantAll (t.detachAll gone) p news).2.update p
      (fun node => { node with kids }) ∧
    Graft (t.Spare gone) t (t.detachAll gone) (plantAll (t.detachAll gone) p news).2 p
      (partsOfAll news) first gone last ids ∧
    allKids kids = first ++ ids ++ last ∧ kids.map Prod.fst = t.roles p := by
  have hintact := hlinked.intact.beneath hp
  obtain ⟨first, last, hsplit, hset⟩ := exists_split_at_role h.role_mem
  have hchildren : t.children p = (first ++ before) ++ gone ++ (after ++ last) := by
    have hlist : t.children p = first ++ (before ++ gone ++ after) ++ last := by
      rw [← h.list_eq]
      exact hsplit
    rw [hlist]
    simp only [append_assoc]
  have hgraft : Graft (t.Spare gone) t (t.detachAll gone) (plantAll (t.detachAll gone) p news).2 p
      (partsOfAll news) (first ++ before) gone (after ++ last) ids := by
    constructor
    · exact Keeps.detachAll t gone
    · intro a _ _ hkept
      rw [node_detachAll, if_neg hkept]
    · intro a hmem hfree
      exact absurd (fun _ => ⟨a, hmem, Beneath.refl⟩) hfree
    · intro a c ha hfree hc hsparing
      -- An undisturbed node is reachable and not beneath a displaced one, and its child is spare
      -- only if displaced.
      rw [Spare, Classical.not_imp] at hfree
      obtain ⟨hreach, hoff⟩ := hfree
      obtain ⟨top, htop, hbelow⟩ := hsparing (hreach.tail hc)
      by_contra hkept
      have hne : c ≠ top := fun heq => hkept (heq ▸ htop)
      have htopIntact := hintact.child (h.child_of_gone htop)
      exact hoff ⟨top, htop, htopIntact.beneath_holder_of_child ha hc hbelow hne⟩
    · exact hintact.has
    · intro hbad
      exact h.not_drawn_of_above hlinked hp Beneath.refl (hbad hp)
    · exact hchildren
    · exact fun c hc => hintact.parent_child (h.child_of_gone hc)
    · exact fun hmem => hintact.not_own_child (h.child_of_gone hmem)
    · exact h.planted hlaid hready
    · exact fun part hpart a hcovers _ =>
        hspare part hpart a (((hready.detached gone).2 part hpart a).mp hcovers)
  obtain ⟨occupants, hresult, hlist⟩ := h.result
  have hnode : (plantAll (t.detachAll gone) p news).2.node p = t.node p := by
    rw [hgraft.node_eq hgraft.has hgraft.free, hgraft.same p hgraft.has hgraft.free hgraft.apart]
  obtain ⟨hkids, hroles⟩ := hgraft.setRole_kids hset (hlist (by rw [hnode]))
  refine ⟨_, _, _, ?_, hgraft, hkids, hroles⟩
  rw [hresult, setRole_eq_update]

/-- An exchange of children keeps a tree well linked: the parents of what comes in are set, and what
goes is cut off. -/
theorem Exchanged.wellLinked : t'.WellLinked := by
  obtain ⟨first, last, kids, rfl, hgraft, hkids, hroles⟩ := h.graft hlaid hready hlinked hp hspare
  have hroot : ¬t.Spare gone t.root := fun hbad =>
    h.not_drawn_of_above hlinked hp hp (hbad Beneath.refl)
  have hkept : t.root ∉ gone := by
    intro hmem
    have hparent := hgraft.parents t.root hmem
    rw [hlinked.parent_root] at hparent
    exact absurd hparent (by simp)
  rw [wellLinked_iff, (hgraft.keeps_grafted hroles).root_eq]
  refine ⟨hgraft.intact hkids hroles hlinked.intact hroot, ?_⟩
  rw [parent_update_kids, hgraft.parent_same hlinked.intact.has hroot hkept]
  exact hlinked.parent_root

theorem Exchanged.reachable_iff (ha : t.Has a) : t'.Reachable a ↔
    (t.Reachable a ∧ ¬t.Drawn gone a) ∨ ∃ part ∈ partsOfAll news, part.Covers t a := by
  obtain ⟨first, last, kids, rfl, hgraft, hkids, hroles⟩ := h.graft hlaid hready hlinked hp hspare
  have hcovers := (hready.detached gone).2
  have hroot : ¬t.Spare gone t.root := fun hbad =>
    h.not_drawn_of_above hlinked hp hp (hbad Beneath.refl)
  rw [Reachable, (hgraft.keeps_grafted hroles).root_eq]
  -- What the root reached around the displaced nodes it reaches still.
  have hstays : ∀ b, t.Reachable b → ¬t.Drawn gone b →
      ((plantAll (t.detachAll gone) p news).2.update p fun node => { node with kids }).Beneath
        t.root b := by
    intro b hb
    induction hb with
    | refl => exact fun _ => Beneath.refl
    | @tail up low hup hlow ih =>
      intro hoff
      have hupOff : ¬t.Drawn gone up := by
        rintro ⟨top, htop, hbelow⟩
        exact hoff ⟨top, htop, hbelow.tail hlow⟩
      refine (ih hupOff).tail ?_
      by_cases heq : up = p
      · subst heq
        have hlow' : low ∉ gone := fun hmem => hoff ⟨low, hmem, Beneath.refl⟩
        rw [hgraft.children_eq] at hlow
        rw [hgraft.children_grafted hkids]
        simp only [mem_append] at hlow ⊢
        tauto
      · have hfree : ¬t.Spare gone up := fun hbad => hupOff (hbad hup)
        rw [hgraft.children_grafted_ne kids (hlinked.intact.beneath hup).has hfree heq]
        exact hlow
  constructor
  · intro hreach
    rcases hgraft.reached hkids hlinked.intact hroot hreach with ⟨hfree, _⟩ | ⟨_, id, hid, hbelow⟩
    · exact Or.inl (Classical.not_imp.mp hfree)
    · obtain ⟨part, hpart, hcovered⟩ :=
        hgraft.planted.region id hid a hbelow ((has_detachAll t gone a).mpr ha)
      exact Or.inr ⟨part, hpart, (hcovers part hpart a).mp hcovered⟩
  · rintro (⟨hreach, hoff⟩ | ⟨part, hpart, hcovered⟩)
    · exact hstays a hreach hoff
    · obtain ⟨id, hid, hbelow⟩ :=
        hgraft.planted.covered part hpart a ((hcovers part hpart a).mpr hcovered)
      refine ((hstays p hp (h.not_drawn_of_above hlinked hp Beneath.refl)).tail ?_).trans
        (hgraft.beneath_of_planted hid hbelow)
      rw [hgraft.children_grafted hkids]
      simp [hid]

theorem Exchanged.reachable_new (ha : t'.Has a) (hnew : ¬t.Has a) : t'.Reachable a := by
  have hreach := h.reachable_iff hlaid hready hlinked hp hspare (hlinked.intact.beneath hp).has
  obtain ⟨first, last, kids, rfl, hgraft, hkids, hroles⟩ := h.graft hlaid hready hlinked hp hspare
  have hp' := hreach.mpr (Or.inl ⟨hp, h.not_drawn_of_above hlinked hp Beneath.refl⟩)
  obtain ⟨id, hid, hbelow⟩ := hgraft.planted.added a (by simpa using ha) (by simpa using hnew)
  refine (hp'.tail ?_).trans (hgraft.beneath_of_planted hid hbelow)
  rw [hgraft.children_grafted hkids]
  simp [hid]

end

/-! ## Exchanges anywhere -/

section

variable (h : Exchanged t t' p role before gone after news ids) (hlaid : AllLaid t news)
  (hready : PartsReady t (partsOfAll news))

include h hlaid hready

theorem Exchanged.keeps : t.Keeps t' := by
  have hplanted := h.planted hlaid hready
  obtain ⟨occupants, rfl, _⟩ := h.result
  exact ((Keeps.detachAll t gone).trans hplanted.keeps).trans (Keeps.setRole _ _ _ _)

theorem Exchanged.tidy (htidy : t.Tidy) : t'.Tidy := by
  have hplanted := h.planted hlaid hready
  obtain ⟨occupants, rfl, _⟩ := h.result
  intro id hid
  have hid' := (has_setRole _ p id role occupants).mp hid
  apply (Keeps.setRole _ p role occupants).laid hid'
  by_cases hold : (t.detachAll gone).Has id
  · have hlaidOld : (t.detachAll gone).Laid id :=
      (Keeps.detachAll t gone).laid ((has_detachAll t gone id).mp hold)
        (htidy id ((has_detachAll t gone id).mp hold))
    exact hplanted.keeps.laid hold hlaidOld
  · exact hplanted.fresh id hid' hold

/-- An exchange changes the holder, what goes and what comes in, and no other node. -/
theorem Exchanged.node_eq (ha : t.Has a) (hne : a ≠ p) (hkept : a ∉ gone)
    (huncovered : ∀ part ∈ partsOfAll news, ¬part.Covers t a) : t'.node a = t.node a := by
  have hplanted := h.planted hlaid hready
  obtain ⟨occupants, rfl, _⟩ := h.result
  rw [node_setRole_ne _ hne, hplanted.frame a ((has_detachAll t gone a).mpr ha), node_detachAll,
    if_neg hkept]
  intro part hpart hcovered
  exact huncovered part hpart (((hready.detached gone).2 part hpart a).mp hcovered)

theorem Exchanged.parent_displaced (hc : c ∈ gone) (hhas : t.Has c)
    (huncovered : ∀ part ∈ partsOfAll news, ¬part.Covers t c) : t'.parent c = none := by
  have hplanted := h.planted hlaid hready
  obtain ⟨occupants, rfl, _⟩ := h.result
  rw [parent_setRole, parent, hplanted.frame c ((has_detachAll t gone c).mpr hhas), node_detachAll,
    if_pos hc]
  intro part hpart hcovered
  exact huncovered part hpart (((hready.detached gone).2 part hpart c).mp hcovered)

end

end Tree

/-! ## Edits -/

namespace Edit

/-- What an operation on a well linked tree has come to. -/
structure Done (t t' : Tree) (edit : Edit) : Prop where
  wellLinked : t'.WellLinked
  keeps : t.Keeps t'
  tidy : t'.Tidy
  reachable : ∀ p, edit.holder t = some p → t.Reachable p → ∀ a, t.Has a →
    (t'.Reachable a ↔ (t.Reachable a ∧ ¬t.Drawn (edit.displaced t) a) ∨ edit.Inserts t a)
  added : ∀ p, edit.holder t = some p → t.Reachable p → ∀ a, t'.Has a → ¬t.Has a → t'.Reachable a
  aside : ∀ p, edit.holder t = some p → ¬t.Reachable p → ∀ a, t'.Reachable a ↔ t.Reachable a
  cut : ∀ c ∈ edit.displaced t, t.Has c → ¬edit.Inserts t c → t'.parent c = none

theorem done_aside (htidy : t.Tidy) (hlinked : t.WellLinked) (hfits : edit.Fits t)
    (hp : edit.holder t = some p) (hoff : ¬t.Reachable p)
    (hgone : ∀ c ∈ edit.displaced t, ¬t.Reachable c)
    (h : Tree.Exchanged t t' p role before (edit.displaced t) after edit.news ids) :
    Done t t' edit := by
  have hkeeps := h.keeps hfits.laid hfits.distinct
  have hsame : ∀ a, t.Beneath t.root a → t'.node a = t.node a := by
    intro a ha
    refine h.node_eq hfits.laid hfits.distinct (hlinked.intact.beneath ha).has ?_ ?_ ?_
    · rintro rfl
      exact hoff ha
    · exact fun hmem => hgone a hmem ha
    · intro part hpart hcovers
      obtain ⟨top, htop, hreach, _⟩ := hfits.within a ⟨part, hpart, hcovers⟩ ha
      exact hgone top htop hreach
  have hroot : t'.root = t.root := hkeeps.root_eq
  refine ⟨?_, hkeeps, h.tidy hfits.laid hfits.distinct htidy, ?_, ?_, ?_, ?_⟩
  · rw [Tree.wellLinked_iff, hroot, Tree.parent, hsame t.root Tree.Beneath.refl]
    exact ⟨hlinked.intact.of_same_nodes (fun _ => hkeeps.hasSlot) hsame, hlinked.parent_root⟩
  · intro q hq hreach
    rw [hp] at hq
    exact absurd hreach (Option.some.inj hq ▸ hoff)
  · intro q hq hreach
    rw [hp] at hq
    exact absurd hreach (Option.some.inj hq ▸ hoff)
  · intro _ _ _ a
    rw [Tree.Reachable, hroot]
    exact Tree.beneath_iff_of_same_nodes hsame
  · exact fun c hc hhas hnew => h.parent_displaced hfits.laid hfits.distinct hc hhas
      fun part hpart hcovers =>
      hnew ⟨part, hpart, hcovers⟩

theorem done_within (htidy : t.Tidy) (hlinked : t.WellLinked) (hfits : edit.Fits t)
    (hp : edit.holder t = some p) (hreach : t.Reachable p)
    (h : Tree.Exchanged t t' p role before (edit.displaced t) after edit.news ids) :
    Done t t' edit := by
  have hspare : ∀ part ∈ partsOfAll edit.news, ∀ a, part.Covers t a →
    t.Spare (edit.displaced t) a := by
    intro part hpart a hcovers ha
    obtain ⟨top, htop, _, hbelow⟩ := hfits.within a ⟨part, hpart, hcovers⟩ ha
    exact ⟨top, htop, hbelow⟩
  refine ⟨h.wellLinked hfits.laid hfits.distinct hlinked hreach hspare,
    h.keeps hfits.laid hfits.distinct, h.tidy hfits.laid hfits.distinct htidy, ?_, ?_, ?_, ?_⟩
  · exact fun _ _ _ a ha => h.reachable_iff hfits.laid hfits.distinct hlinked hreach hspare ha
  · exact fun _ _ _ a ha hnew => h.reachable_new hfits.laid hfits.distinct hlinked hreach hspare ha
      hnew
  · intro q hq hoff
    rw [hp] at hq
    exact absurd hreach (Option.some.inj hq ▸ hoff)
  · exact fun c hc hhas hnew => h.parent_displaced hfits.laid hfits.distinct hc hhas
      fun part hpart hcovers =>
      hnew ⟨part, hpart, hcovers⟩

theorem perform_error (edit : Edit) {session after : Session} {fault : Fault}
    (h : edit.perform session = .error fault after) : after = session := by
  simp only [perform, Pass.edit, Bind.bind, EStateM.bind] at h
  split at h
  · rename_i hfirst
    cases hfirst
    cases happly : edit.apply session.tree with
    | error failure =>
      rw [happly] at h
      cases h
      rfl
    | ok result =>
      rw [happly] at h
      cases h
  · rename_i hfirst
    cases hfirst

/-- An operation keeps a well linked tree well linked or does nothing.  If the holder is part of the
tree, the tree afterwards consists of what it did, less the displaced subtrees, plus what has been
put in; if it is not, and the displaced nodes are not either, the tree stays as it is. -/
theorem apply_wellLinked (t : Tree) (edit : Edit) (htidy : t.Tidy) (hlinked : t.WellLinked)
    (hfits : edit.Fits t)
    (hholder : ∀ p, edit.holder t = some p → t.Reachable p ∨ ∀ c ∈ edit.displaced t,
      ¬t.Reachable c) :
    (∀ t', edit.apply t = .ok t' → Done t t' edit) ∧
      ∀ session fault after, session.tree = t → edit.perform session = .error fault after →
        after = session := by
  refine ⟨fun t' happly => ?_, fun session fault after _ hfault => perform_error edit hfault⟩
  obtain ⟨p, role, before, after, ids, hp, hexchanged⟩ := Tree.exchanged_of_apply htidy happly
  by_cases hreach : t.Reachable p
  · exact done_within htidy hlinked hfits hp hreach hexchanged
  · exact done_aside htidy hlinked hfits hp hreach ((hholder p hp).resolve_left hreach) hexchanged

/-! ## A negation and its operand -/

def negation (outer : NodeId) (parentOfNegation parentOfOperand : Option NodeId) : Tree :=
  { (default : Tree) with
    nodes := #[
      { bareStatement with kids := [(.expression, .one outer)] },
      { bareStatement with
        shape := .unary (.text "not") (.bool false) none, parent := parentOfNegation
        kids := [(.operand, .one (.slot 2))] },
      { bareStatement with shape := .selfRef none, parent := parentOfOperand }]
    root := .slot 0 }
where
  bareStatement : Node := Tree.bareNode .expressionStatement none none

theorem negation_tidy (outer : NodeId) (up low : Option NodeId) : (negation outer up low).Tidy := by
  intro id hid
  cases id with
  | slot n =>
    have hn : n < 3 := hid
    match n, hn with
    | 0, _ => rfl
    | 1, _ => rfl
    | 2, _ => rfl
  | loose n => exact absurd hid (Nat.not_lt_zero n)

theorem operand_intact (outer : NodeId) (up low : Option NodeId) :
    (negation outer up low).Intact (.slot 2) := by
  have hnone : (negation outer up low).children (.slot 2) = [] := rfl
  exact .intro (show 2 < 3 by decide) (by simp [hnone]) (by simp [hnone]) (by simp [hnone])

theorem intact_of_only_child (hslot : t.HasSlot id) (hchildren : t.children id = [c])
    (hparent : t.parent c = some id) (hc : t.Intact c) : t.Intact id := by
  refine .intro hslot ?_ ?_ ?_
  · simp [hchildren]
  · simpa [hchildren] using hparent
  · simpa [hchildren] using hc

theorem negation_wellLinked : (negation (.slot 1) (some (.slot 0)) (some (.slot 1))).WellLinked :=
  Tree.wellLinked_iff.mpr
    ⟨intact_of_only_child (show 0 < 3 by decide) rfl rfl
      (intact_of_only_child (show 1 < 3 by decide) rfl rfl (operand_intact _ _ _)), rfl⟩

theorem hoisted_wellLinked : (negation (.slot 2) none (some (.slot 0))).WellLinked :=
  Tree.wellLinked_iff.mpr
    ⟨intact_of_only_child (show 0 < 3 by decide) rfl rfl (operand_intact _ _ _), rfl⟩

def castOperand : Edit :=
  .replace (.slot 1) (.fresh (.cast none) none
    [(.typeRef, .one (.fresh (.typeRef none) none [])), (.operand, .one (.kept (.slot 2)))])

theorem castOperand_fits :
    castOperand.Fits (negation (.slot 1) (some (.slot 0)) (some (.slot 1))) := by
  have hparts : partsOfAll castOperand.news = [.whole (.slot 2)] := rfl
  refine ⟨?_, ?_, ?_⟩
  · exact ⟨⟨rfl, ⟨rfl, trivial⟩, trivial, trivial⟩, trivial⟩
  · rw [hparts]
    exact ⟨by simpa using (operand_intact _ _ _).ready, pairwise_singleton _ _⟩
  · rintro a ⟨part, hpart, hcovers⟩ hreach
    rw [hparts] at hpart
    rw [mem_singleton.mp hpart] at hcovers
    refine ⟨.slot 1, mem_cons_self, Tree.Beneath.of_child ?_, hcovers.1.below_child ?_⟩
    · exact mem_cons_self
    · exact mem_cons_self

theorem castOperand_done :
    (∃ t', castOperand.apply (negation (.slot 1) (some (.slot 0)) (some (.slot 1))) = .ok t') ∧
      ∀ t', castOperand.apply (negation (.slot 1) (some (.slot 0)) (some (.slot 1))) = .ok t' →
        Done (negation (.slot 1) (some (.slot 0)) (some (.slot 1))) t' castOperand :=
  ⟨⟨_, rfl⟩,
    (apply_wellLinked _ castOperand (negation_tidy _ _ _) negation_wellLinked castOperand_fits
      fun _ hp => Or.inl (Option.some.inj hp ▸ Tree.Beneath.refl)).1⟩

/-- Emptying a negation that has been cut out, but lists an operand that lives elsewhere, cuts the
operand's link: the tree was well linked, nothing is put in, and the tree is not well linked
afterwards. -/
theorem put_beneath_detached :
    (negation (.slot 2) none (some (.slot 0))).Tidy ∧
      (negation (.slot 2) none (some (.slot 0))).WellLinked ∧
      (Edit.put (.slot 1) .operand none).Fits (negation (.slot 2) none (some (.slot 0))) ∧ ∃ t',
        (Edit.put (.slot 1) .operand none).apply (negation (.slot 2) none (some (.slot 0))) =
        .ok t' ∧ t'.isLinked = false ∧ ¬t'.WellLinked := by
  refine ⟨negation_tidy _ _ _, hoisted_wellLinked,
    ⟨trivial, ⟨by simp [news, partsOfAll], List.Pairwise.nil⟩, ?_⟩, _, rfl, rfl, ?_⟩
  · rintro a ⟨part, hpart, _⟩
    exact absurd hpart (by simp [news, partsOfAll])
  · intro hlinked
    exact absurd hlinked.linked (by decide)

end Edit

end UnitySharp
