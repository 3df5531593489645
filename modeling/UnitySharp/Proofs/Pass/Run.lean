import UnitySharp.Pass.Basic
import UnitySharp.Proofs.Tree.Edited

/-!
# Following a pass

`Yields` says that something holds of every session in which a pass ends normally, with one lemma
for each action; `Ends` says that there is such an end as well.  `EndsUnless` lies between them:
what is amiss at a fault is `True` for `Yields` and `False` for `Ends`.

The contract of a visit (`Visits`) bounds what it disturbs by a reach around the visited node.  It
is enough to keep the contract for a rule, given that the visits handed to it keep it.
-/

namespace UnitySharp

open List

variable {s : Session} {id : NodeId} {t : Tree} {D : NodeId → Prop}

namespace Pass

variable {α β : Type} {amiss : Prop} {post : Unit → Session → Prop} {f : Tree → Tree} {role : Role}
  {level : Int} {line : String} {type : Option Ty}

theorem run_tree {next : Tree → Pass α} : (Pass.tree >>= next) s = next s.tree s :=
  rfl

/-- Whenever an action ends normally, its result and the session after it have a property. -/
def Yields (action : Pass α) (s : Session) (post : α → Session → Prop) : Prop :=
  ∀ result after, action s = .ok result after → post result after

/-- An action ends normally, and its result and the session after it have a property. -/
def Ends (action : Pass α) (s : Session) (post : α → Session → Prop) : Prop :=
  ∃ result after, action s = .ok result after ∧ post result after

/-- An action ends normally, and its result and the session after it have a property, unless
something is amiss. -/
def EndsUnless (amiss : Prop) (action : Pass α) (s : Session) (post : α → Session → Prop) : Prop :=
  match action s with
  | .ok result after => post result after
  | .error _ _ => amiss

namespace EndsUnless

theorem pure {value : α} {post : α → Session → Prop} (h : post value s) :
    EndsUnless amiss (Pure.pure value) s post :=
  h

theorem bind {action : Pass α} {next : α → Pass β} {post : β → Session → Prop}
    (h : EndsUnless amiss action s fun result after => EndsUnless amiss (next result) after post) :
    EndsUnless amiss (action >>= next) s post := by
  unfold EndsUnless at h ⊢
  simp only [Bind.bind, EStateM.bind]
  cases hrun : action s with
  | ok result after =>
    rw [hrun] at h
    exact h
  | error fault after =>
    rw [hrun] at h
    exact h

theorem mono {action : Pass α} {post weaker : α → Session → Prop}
    (h : EndsUnless amiss action s post)
    (hweaker : ∀ result after, post result after → weaker result after) :
    EndsUnless amiss action s weaker := by
  unfold EndsUnless at h ⊢
  split at h
  · exact hweaker _ _ h
  · exact h

theorem tree {post : Tree → Session → Prop} (h : post s.tree s) :
    EndsUnless amiss Pass.tree s post :=
  h

theorem ofExcept {answer : Except Fault α} {post : α → Session → Prop}
    (h : ∀ result, answer = .ok result → post result s)
    (hfault : (∀ result, answer ≠ .ok result) → amiss) :
    EndsUnless amiss (Pass.ofExcept answer) s post := by
  cases answer with
  | ok result => exact h result rfl
  | error fault => exact hfault fun _ hok => by cases hok

theorem change (h : post () { s with tree := f s.tree }) :
    EndsUnless amiss (Pass.change f) s post :=
  h

theorem edit {f : Tree → Except Fault (α × Tree)} {post : α → Session → Prop}
    (h : ∀ result t, f s.tree = .ok (result, t) → post result { s with tree := t })
    (hfault : (∀ result, f s.tree ≠ .ok result) → amiss) :
      EndsUnless amiss (Pass.edit f) s post := by
  apply bind
  apply tree
  cases hf : f s.tree with
  | error fault => exact hfault fun _ hok => by cases hf.symm.trans hok
  | ok found => exact bind (change (pure (h found.1 found.2 hf)))

theorem remove (h : ∀ t, s.tree.remove id = .ok t → post () { s with tree := t })
    (hfault : (∀ t, s.tree.remove id ≠ .ok t) → amiss) :
      EndsUnless amiss (Pass.remove id) s post := by
  cases hrun : s.tree.remove id with
  | error fault =>
    refine edit (fun result t hremove => ?_) fun _ => hfault fun t hremove => ?_
    · simp [hrun, Except.map] at hremove
    · cases hrun.symm.trans hremove
  | ok removed =>
    refine edit (fun result t hremove => ?_) fun hnone => absurd ?_ (hnone ((), removed))
    · cases show removed = t by simpa [hrun, Except.map] using hremove
      exact h removed hrun
    · rw [hrun]
      rfl

theorem child {post : NodeId → Session → Prop}
    (h : ∀ child, s.tree.only? id role = some child → post child s)
    (hfault : s.tree.only? id role = none → amiss) :
    EndsUnless amiss (Pass.child id role) s post := by
  apply bind
  apply tree
  unfold Tree.child
  cases honly : s.tree.only? id role with
  | none => exact hfault honly
  | some child => exact h child honly

theorem foldlM_along {items : List β} {action : α → β → Pass α} {start : α}
    (inv : List β → α → Session → Prop) (hinv : inv [] start s)
    (h : ∀ before item after, items = before ++ item :: after → ∀ value s, inv before value s →
      EndsUnless amiss (action value item) s (inv (before ++ [item]))) :
    EndsUnless amiss (items.foldlM action start) s (inv items) := by
  have hfrom : ∀ before rest, items = before ++ rest → ∀ value s, inv before value s →
      EndsUnless amiss (rest.foldlM action value) s (inv items) := by
    intro before rest
    induction rest generalizing before with
    | nil =>
      intro hsplit value s hvalue
      rw [hsplit, append_nil]
      exact pure hvalue
    | cons item rest ih =>
      intro hsplit value s hvalue
      rw [foldlM_cons]
      apply bind
      apply (h before item rest hsplit value s hvalue).mono
      intro next middle hmiddle
      exact ih (before ++ [item]) (by simpa using hsplit) next middle hmiddle
  exact hfrom [] items rfl start s hinv

theorem forM_along {items : List α} {action : α → Pass Unit} (inv : List α → Session → Prop)
    (hinv : inv [] s) (h : ∀ before item rest, items = before ++ item :: rest → ∀ middle,
      inv before middle → EndsUnless amiss (action item) middle fun _ after =>
      inv (before ++ [item]) after) :
    EndsUnless amiss (items.forM action) s fun _ after => inv items after := by
  have hfold : items.forM action = items.foldlM (fun _ item => action item) () := by
    clear h
    induction items with
    | nil => rfl
    | cons item rest ih => rw [List.forM, foldlM_cons, ih]
  rw [hfold]
  exact foldlM_along (fun done _ => inv done) hinv fun before item rest hsplit _ =>
    h before item rest hsplit

theorem say (h : ∀ report, post () { s with report }) :
    EndsUnless amiss (Pass.say level line) s post :=
  h _

theorem of_yields {action : Pass α} {post : α → Session → Prop} (h : Yields action s post)
    (hruns : ∃ result after, action s = .ok result after) : EndsUnless amiss action s post := by
  obtain ⟨result, after, hrun⟩ := hruns
  rw [EndsUnless, hrun]
  exact h result after hrun

theorem yields {action : Pass α} {post : α → Session → Prop} (h : EndsUnless amiss action s post) :
    Yields action s post := by
  intro result after hrun
  unfold EndsUnless at h
  rwa [hrun] at h

theorem ends {action : Pass α} {post : α → Session → Prop} (h : EndsUnless amiss action s post)
    (hfine : ¬amiss) :
    Ends action s post := by
  unfold EndsUnless at h
  split at h
  · rename_i result after hrun
    exact ⟨result, after, hrun, h⟩
  · exact absurd h hfine

end EndsUnless

namespace Yields

theorem bind {action : Pass α} {next : α → Pass β} {post : β → Session → Prop}
    (h : Yields action s fun result after => Yields (next result) after post) :
      Yields (action >>= next) s post := by
  intro result after hrun
  simp only [Bind.bind, EStateM.bind] at hrun
  split at hrun
  · rename_i middle session hfirst
    exact h middle session hfirst result after hrun
  · exact absurd hrun (by simp)

theorem mono {action : Pass α} {post weaker : α → Session → Prop} (h : Yields action s post)
    (hweaker : ∀ result after, post result after → weaker result after) : Yields action s weaker :=
  fun result after hrun => hweaker result after (h result after hrun)

theorem pure {value : α} {post : α → Session → Prop} (h : post value s) :
    Yields (Pure.pure value) s post := by
  intro result after hrun
  cases hrun
  exact h

theorem throw {fault : Fault} {post : α → Session → Prop} :
    Yields (MonadExcept.throw fault) s post := by
  intro result after hrun
  cases hrun

theorem tree {post : Tree → Session → Prop} (h : post s.tree s) : Yields Pass.tree s post := by
  intro result after hrun
  cases hrun
  exact h

theorem read {next : Tree → Pass α} {post : α → Session → Prop} (h : Yields (next s.tree) s post) :
    Yields (Pass.tree >>= next) s post :=
  bind (tree h)

theorem ofExcept {answer : Except Fault α} {post : α → Session → Prop}
    (h : ∀ result, answer = .ok result → post result s) : Yields (Pass.ofExcept answer) s post :=
  (EndsUnless.ofExcept h fun _ => trivial).yields

theorem change (h : post () { s with tree := f s.tree }) : Yields (Pass.change f) s post := by
  intro result after hrun
  cases hrun
  exact h

theorem edit {f : Tree → Except Fault (α × Tree)} {post : α → Session → Prop}
    (h : ∀ result t, f s.tree = .ok (result, t) → post result { s with tree := t }) :
      Yields (Pass.edit f) s post :=
  (EndsUnless.edit h fun _ => trivial).yields

theorem remove (h : ∀ t, s.tree.remove id = .ok t → post () { s with tree := t }) :
    Yields (Pass.remove id) s post :=
  (EndsUnless.remove h fun _ => trivial).yields

theorem put {p : NodeId} {new : Draft}
    (h : ∀ t, s.tree.put p role (some new) = .ok t → post () { s with tree := t }) :
    Yields (Pass.put p role new) s post := by
  refine edit fun result t hput => ?_
  cases hrun : s.tree.put p role (some new) with
  | error fault => simp [hrun, Except.map] at hput
  | ok filled =>
    have heq : filled = t := by simpa [hrun, Except.map] using hput
    exact h t (heq ▸ hrun)

theorem say (h : ∀ after, after.tree = s.tree → post () after) :
    Yields (Pass.say level line) s post := by
  intro result after hrun
  cases hrun
  exact h _ rfl

theorem flag {kind description : String} {position : Option Position} {post : Unit → Session → Prop}
    (h : ∀ after, after.tree = s.tree → post () after) :
      Yields (Pass.flag kind description position) s post := by
  intro result after hrun
  cases hrun
  exact h _ rfl

theorem child {post : NodeId → Session → Prop}
    (h : ∀ child, s.tree.only? id role = some child → post child s) :
    Yields (Pass.child id role) s post :=
  (EndsUnless.child h fun _ => trivial).yields

theorem statementsOf {block : NodeId} {post : List NodeId → Session → Prop}
    (h : s.tree.kind block = .block → post (s.tree.listed block .statements) s) :
    Yields (Pass.statementsOf block) s post := by
  refine bind (tree (ofExcept ?_))
  intro result hlist
  unfold Tree.statementsOf at hlist
  split at hlist
  · rename_i hkind
    cases hlist
    exact h hkind
  · exact absurd hlist (by simp)

theorem typeAt {post : Option Ty → Session → Prop} (h : ∀ type, post type s) :
    Yields (Pass.typeAt id) s post :=
  bind (tree (ofExcept fun type _ => h type))

theorem typeIn {post : Option Ty → Session → Prop} (h : ∀ type, post type s) :
    Yields (Pass.typeIn id role) s post :=
  bind (tree (ofExcept fun type _ => h type))

theorem endsUnless {action : Pass α} {post : α → Session → Prop} (h : Yields action s post) :
    EndsUnless True action s post := by
  unfold EndsUnless
  split
  · rename_i result after hrun
    exact h result after hrun
  · trivial

theorem forM_along {items : List α} {action : α → Pass Unit} (inv : List α → Session → Prop)
    (hinv : inv [] s) (h : ∀ before item rest, items = before ++ item :: rest → ∀ middle,
      inv before middle → Yields (action item) middle fun _ after => inv (before ++ [item]) after) :
    Yields (items.forM action) s fun _ after => inv items after :=
  (EndsUnless.forM_along inv hinv fun before item rest hsplit middle hmiddle =>
    (h before item rest hsplit middle hmiddle).endsUnless).yields

theorem forM {items : List α} {action : α → Pass Unit} (inv : Session → Prop) (hinv : inv s)
    (h : ∀ item ∈ items, ∀ s, inv s → Yields (action item) s fun _ after => inv after) :
    Yields (items.forM action) s fun _ after => inv after :=
  forM_along (fun _ => inv) hinv fun before item rest hsplit => h item (by simp [hsplit])

theorem foldlM_along {items : List β} {action : α → β → Pass α} {start : α}
    (inv : List β → α → Session → Prop) (hinv : inv [] start s)
    (h : ∀ before item after, items = before ++ item :: after → ∀ value s, inv before value s →
      Yields (action value item) s (inv (before ++ [item]))) :
    Yields (items.foldlM action start) s (inv items) :=
  (EndsUnless.foldlM_along inv hinv fun before item after hsplit value s hvalue =>
    (h before item after hsplit value s hvalue).endsUnless).yields

theorem foldlM {items : List β} {action : α → β → Pass α} {start : α} {inv : α → Session → Prop}
    (hinv : inv start s)
    (h : ∀ item ∈ items, ∀ value s, inv value s → Yields (action value item) s inv) :
    Yields (items.foldlM action start) s inv :=
  foldlM_along (fun _ => inv) hinv fun before item after hsplit => h item (by simp [hsplit])

theorem mapM_reading {items : List α} {action : α → Pass β} (fits : α → β → Prop)
    {post : List β → Session → Prop}
    (h : ∀ item ∈ items, Yields (action item) s fun result after => after = s ∧ fits item result)
    (hpost : ∀ results, List.Forall₂ fits items results → post results s) :
    Yields (items.mapM action) s post := by
  induction items generalizing post with
  | nil => exact pure (hpost [] .nil)
  | cons item rest ih =>
    rw [mapM_cons]
    refine bind ((h item mem_cons_self).mono ?_)
    rintro result _ ⟨rfl, hfits⟩
    refine bind (ih (fun other hother => h other (mem_cons_of_mem _ hother)) ?_)
    exact fun results hresults => pure (hpost _ (.cons hfits hresults))

end Yields

namespace Ends

theorem pure {value : α} {post : α → Session → Prop} (h : post value s) :
    Ends (Pure.pure value) s post :=
  ⟨value, s, rfl, h⟩

theorem bind {action : Pass α} {next : α → Pass β} {post : β → Session → Prop}
    (h : Ends action s fun result after => Ends (next result) after post) :
      Ends (action >>= next) s post := by
  obtain ⟨middle, session, hfirst, result, after, hnext, hpost⟩ := h
  refine ⟨result, after, ?_, hpost⟩
  show EStateM.bind action next s = _
  rw [EStateM.bind, hfirst]
  exact hnext

theorem mono {action : Pass α} {post weaker : α → Session → Prop} (h : Ends action s post)
    (hweaker : ∀ result after, post result after → weaker result after) : Ends action s weaker := by
  obtain ⟨result, after, hrun, hpost⟩ := h
  exact ⟨result, after, hrun, hweaker result after hpost⟩

theorem tree {post : Tree → Session → Prop} (h : post s.tree s) : Ends Pass.tree s post :=
  ⟨s.tree, s, rfl, h⟩

theorem ofExcept {answer : Except Fault α} {value : α} {post : α → Session → Prop}
    (hanswer : answer = .ok value) (h : post value s) : Ends (Pass.ofExcept answer) s post := by
  subst hanswer
  exact pure h

theorem change (h : post () { s with tree := f s.tree }) : Ends (Pass.change f) s post :=
  ⟨(), _, rfl, h⟩

theorem endsUnless {action : Pass α} {post : α → Session → Prop} (h : Ends action s post) :
    EndsUnless amiss action s post := by
  obtain ⟨result, after, hrun, hpost⟩ := h
  rwa [EndsUnless, hrun]

theorem forM_along {items : List α} {action : α → Pass Unit} (inv : List α → Session → Prop)
    (hinv : inv [] s) (h : ∀ before item rest, items = before ++ item :: rest → ∀ middle,
      inv before middle → Ends (action item) middle fun _ after => inv (before ++ [item]) after) :
    Ends (items.forM action) s fun _ after => inv items after := by
  have hrun : EndsUnless False (items.forM action) s fun _ after => inv items after :=
    EndsUnless.forM_along inv hinv fun before item rest hsplit middle hmiddle =>
      (h before item rest hsplit middle hmiddle).endsUnless
  exact hrun.ends not_false

theorem edit {f : Tree → Except Fault (α × Tree)} {result : α} {post : α → Session → Prop}
    (h : f s.tree = .ok (result, t)) (hpost : post result { s with tree := t }) :
      Ends (Pass.edit f) s post := by
  apply bind
  apply tree
  rw [h]
  exact bind (change (pure hpost))

end Ends

/-! ## Changes that leave the links alone -/

theorem reshape_yields {f : Shape → Shape} {post : Unit → Session → Prop}
    (hkind : (f (s.tree.shape id)).kind = s.tree.kind id)
    (h : ∀ after, after.tree = s.tree.setShape id (f (s.tree.shape id)) →
      (∀ D, Tree.Spared D s.tree after.tree) → post () after) :
    Yields (Pass.reshape id f) s post := by
  refine Yields.change (h _ rfl fun D => ?_)
  apply Tree.Spared.of_same_links (Tree.Keeps.setShape hkind)
  · exact fun other hother => (Tree.has_update _ _ _ _).mp hother
  · exact fun other => Tree.children_setShape _ _ _ _
  · exact fun other => Tree.parent_setShape _ _ _ _

theorem setType_yields
    (h : ∀ after, after.tree = s.tree.setType id type → (∀ D, Tree.Spared D s.tree after.tree) →
      post () after) :
    Yields (Pass.setType id type) s post := by
  refine Yields.change (h _ rfl fun D => ?_)
  apply Tree.Spared.of_same_links (Tree.Keeps.setType _ _ _)
  · exact fun other hother => (Tree.has_update _ _ _ _).mp hother
  · exact fun other => Tree.children_setType _ _ _ _
  · exact fun other => Tree.parent_setType _ _ _ _

theorem coin_yields {kind : BindingKind} {name : Name} {type : Option Ty}
    {post : Symbol → Session → Prop}
    (h : ∀ symbol after, after.tree.nodes = s.tree.nodes → after.tree.loose = s.tree.loose →
      after.tree.root = s.tree.root → post symbol after) :
    Yields (Pass.coin kind name type) s post := by
  intro result after hrun
  cases hrun
  exact h _ _ rfl rfl rfl

end Pass

namespace Tree

variable {s : Tree}

theorem node_congr (hnodes : t.nodes = s.nodes) (hloose : t.loose = s.loose) (id : NodeId) :
    t.node id = s.node id := by
  cases id <;> simp [node, hnodes, hloose]

/-- A tree stays sound under changes that do not reach its root. -/
theorem Sound.of_spared (h : s.Sound) (hspared : Spared D s t) (hfree : ¬D s.root) : t.Sound := by
  have hroot : s.Standing s.root := h.standing
  refine ⟨hspared.tidy h.tidy, ?_, ?_⟩
  · rw [hspared.keeps.root_eq]
    exact (hspared.standing _ hroot hfree).intact
  · rw [hspared.keeps.root_eq]
    exact hspared.top _ hroot hfree h.top

/-- From one tree to the next the root has not been disturbed. -/
def SparesRoot (s t : Tree) : Prop :=
  ∃ D, Spared D s t ∧ ¬D s.root

namespace SparesRoot

theorem sound (h : s.SparesRoot t) (hs : s.Sound) : t.Sound := by
  obtain ⟨D, hspared, hfree⟩ := h
  exact hs.of_spared hspared hfree

theorem keeps (h : s.SparesRoot t) : s.Keeps t := by
  obtain ⟨D, hspared, _⟩ := h
  exact hspared.keeps

theorem bare (h : s.SparesRoot t) (hs : s.Bare) : t.Bare := by
  obtain ⟨D, hspared, _⟩ := h
  exact hspared.bare hs

end SparesRoot

theorem Spared.of_same_store (hnodes : t.nodes = s.nodes) (hloose : t.loose = s.loose)
    (hroot : t.root = s.root) :
    Spared D s t := by
  have hnode := node_congr hnodes hloose
  refine Spared.of_same_links ?_ ?_ ?_ ?_
  · exact {
      size_le := by simp [size, hnodes]
      loose_le := by simp [hloose]
      root_eq := hroot
      kind_eq := fun id _ => by simp only [kind, shape, hnode]
      roles_eq := fun id _ => by simp only [roles, hnode]
      position_eq := fun id _ => by rw [hnode]
      comments_eq := fun id _ => by rw [hnode] }
  · intro id hid
    cases id with
    | slot n => simpa [Has, hnodes] using hid
    | loose n => simpa [Has, hloose] using hid
  · exact fun id => by simp only [children, hnode]
  · exact fun id => by simp only [parent, hnode]

end Tree

/-! ## Visits -/

namespace Pass

open UnitySharp.Tree

variable {ground : Tree → Prop} {rule : Rule}

/-- A condition on trees that outlasts all changes at a standing node. -/
class Steady (ground : Tree → Prop) : Prop where
  after_reach : ∀ {s t : Tree} {id : NodeId}, ground s → s.Standing id → Spared (s.Reach id) s t →
    ground t

theorem Steady.after_within [Steady ground] {s : Tree} (hground : ground s) (hid : s.Standing id)
    (hspared : Spared (s.Within id) s t) : ground t :=
  Steady.after_reach hground hid (hspared.reach_of_within hid.intact)

instance : Steady Tidy where
  after_reach := fun htidy _ hspared => hspared.tidy htidy

instance : Steady Sound where
  after_reach := fun hsound _ hspared => hsound.of_spared hspared fun hreach => hreach.2 hsound.top

/-- On a certain ground, a visit of a standing node disturbs nothing beyond a reach around the
node. -/
def VisitsOn (ground : Tree → Prop) (reach : Tree → NodeId → NodeId → Prop)
    (visit : NodeId → Pass Unit) : Prop :=
  ∀ s id, ground s.tree → s.tree.Standing id →
    Yields (visit id) s fun _ after => Spared (reach s.tree id) s.tree after.tree

abbrev Visits : (Tree → NodeId → NodeId → Prop) → (NodeId → Pass Unit) → Prop :=
  VisitsOn Tidy

def Local (reach : Tree → NodeId → NodeId → Prop) : Prop :=
  ∀ (t : Tree) (id child a : NodeId), t.Standing id → child ∈ t.children id → reach t child a →
    t.Within id a

theorem local_reach : Local Tree.Reach :=
  fun _ _ _ _ hid hchild hreach => hreach.within_of_child hid.intact hchild

variable [Steady ground] {reach : Tree → NodeId → NodeId → Prop} {visit : NodeId → Pass Unit}

def descendTo (visit : NodeId → Pass Unit) (id : NodeId) (children : List NodeId) : Pass Unit :=
  children.forM fun child => do
    if (← tree).parent child == some id then visit child

theorem mem_children_of_parent {child : NodeId} (hid : s.tree.Standing id)
    (hspared : Spared (s.tree.Within id) s.tree t) (hchild : child ∈ s.tree.children id)
    (hparent : t.parent child = some id) : child ∈ t.children id := by
  rcases hspared.listed child id (hid.child hchild).has hid.has Spared.not_within_self
    hparent with hin | hstale
  · exact hin
  · exact absurd hchild hstale.2

/-- Visits to some children of a node, one after the other, are a change beneath it. -/
theorem descendTo_yields (hvisit : VisitsOn ground reach visit) (hlocal : Local reach)
    (hground : ground s.tree) (hid : s.tree.Standing id) {children : List NodeId}
    (hchildren : ∀ child ∈ children, child ∈ s.tree.children id) :
    Yields (descendTo visit id children) s fun _ after =>
      Spared (s.tree.Within id) s.tree after.tree := by
  refine Yields.forM (fun after => Spared (s.tree.Within id) s.tree after.tree)
    (Spared.refl _ _) ?_
  intro child hchild middle hmiddle
  refine Yields.read ?_
  split
  · rename_i hparent
    have hlisted :=
      mem_children_of_parent hid hmiddle (hchildren child hchild) (by simpa using hparent)
    have hstanding : middle.tree.Standing id := hid.of_within hmiddle
    refine (hvisit middle child (Steady.after_within hground hid hmiddle)
      (hstanding.child hlisted)).mono ?_
    intro _ after hafter
    refine hmiddle.trans_within (hafter.mono ?_) hid
    exact fun a _ hreach => hlocal middle.tree id child a hstanding hlisted hreach
  · exact Yields.pure hmiddle

theorem descend_yields (hvisit : VisitsOn ground reach visit) (hlocal : Local reach)
    (hground : ground s.tree) (hid : s.tree.Standing id) :
    Yields (descend visit id) s fun _ after => Spared (s.tree.Within id) s.tree after.tree :=
  Yields.read (descendTo_yields hvisit hlocal hground hid fun _ hchild => hchild)

omit [Steady ground] in
/-- If a rule keeps within its reach whenever its visits do, all visits by the rule keep within
it. -/
theorem visitWithin_visits
    (hrule : ∀ visit, VisitsOn ground reach visit → VisitsOn ground reach (rule visit))
    (depth : Nat) : VisitsOn ground reach (visitWithin rule depth) := by
  induction depth with
  | zero => exact fun _ _ _ _ => Yields.throw
  | succ depth ih => exact hrule _ ih

omit [Steady ground] in
theorem everywhere_yields
    (hrule : ∀ visit, VisitsOn ground reach visit → VisitsOn ground reach (rule visit))
    (htop : ∀ t : Tree, t.parent t.root = none → ¬reach t t.root t.root) (hground : ground s.tree)
    (hsound : s.tree.Sound) : Yields (everywhere rule) s fun _ after =>
    s.tree.SparesRoot after.tree := by
  have hroot : s.tree.Standing s.tree.root := hsound.standing
  refine Yields.read ?_
  refine (visitWithin_visits hrule _ s s.tree.root hground hroot).mono ?_
  intro _ after hafter
  exact ⟨_, hafter, htop s.tree hsound.top⟩

end Pass

end UnitySharp
