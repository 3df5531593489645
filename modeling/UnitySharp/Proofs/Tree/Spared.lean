import UnitySharp.Proofs.Tree.Intact

/-!
# What a change leaves alone

The nodes that stand are those that a pass can still work on: the tree proper and the subtrees that
have been cut out of it whole.  `Spared` says what a change amounts to outside of a set of disturbed
nodes: what stood stands, and nothing but disturbed and new nodes gets beneath it.  It composes, so
a pass is followed one change at a time.
-/

namespace UnitySharp.Tree

variable {s t u : Tree} {D E : NodeId → Prop} {a b c id top : NodeId} {f : Node → Node}

/-! ## Nodes stay what they are -/

def roles (t : Tree) (id : NodeId) : List Role :=
  (t.node id).kids.map Prod.fst

def Laid (t : Tree) (id : NodeId) : Prop :=
  t.roles id = (t.kind id).layout.map Prod.fst

def Tidy (t : Tree) : Prop :=
  ∀ id, t.Has id → t.Laid id

/-- No slot is lost, and a node keeps its kind, its roles, its place in the source and its
comments. -/
structure Keeps (s t : Tree) : Prop where
  size_le : s.size ≤ t.size
  loose_le : s.loose.size ≤ t.loose.size
  root_eq : t.root = s.root
  kind_eq : ∀ id, s.Has id → t.kind id = s.kind id
  roles_eq : ∀ id, s.Has id → t.roles id = s.roles id
  position_eq : ∀ id, s.Has id → (t.node id).position = (s.node id).position
  comments_eq : ∀ id, s.Has id → (t.node id).comments = (s.node id).comments

namespace Keeps

theorem refl (t : Tree) : t.Keeps t :=
  ⟨Nat.le_refl _, Nat.le_refl _, rfl, fun _ _ => rfl, fun _ _ => rfl, fun _ _ => rfl, fun _ _ =>
    rfl⟩

theorem has (h : s.Keeps t) (hid : s.Has id) : t.Has id := by
  cases id with
  | slot n => exact Nat.lt_of_lt_of_le hid h.size_le
  | loose n => exact Nat.lt_of_lt_of_le hid h.loose_le

theorem hasSlot (h : s.Keeps t) (hid : s.HasSlot id) : t.HasSlot id := by
  cases id with
  | slot n => exact Nat.lt_of_lt_of_le hid h.size_le
  | loose n => exact hid.elim

theorem laid (h : s.Keeps t) (hid : s.Has id) (hlaid : s.Laid id) : t.Laid id := by
  rw [Laid, h.roles_eq id hid, h.kind_eq id hid]
  exact hlaid

theorem trans (hst : s.Keeps t) (htu : t.Keeps u) : s.Keeps u where
  size_le := Nat.le_trans hst.size_le htu.size_le
  loose_le := Nat.le_trans hst.loose_le htu.loose_le
  root_eq := htu.root_eq.trans hst.root_eq
  kind_eq := fun id hid => (htu.kind_eq id (hst.has hid)).trans (hst.kind_eq id hid)
  roles_eq := fun id hid => (htu.roles_eq id (hst.has hid)).trans (hst.roles_eq id hid)
  position_eq := fun id hid => (htu.position_eq id (hst.has hid)).trans (hst.position_eq id hid)
  comments_eq := fun id hid => (htu.comments_eq id (hst.has hid)).trans (hst.comments_eq id hid)

theorem update (h : s.Keeps t)
    (hkind : s.Has id → (f (t.node id)).shape.kind = (t.node id).shape.kind)
    (hroles : s.Has id → (f (t.node id)).kids.map Prod.fst = (t.node id).kids.map Prod.fst)
    (hposition : s.Has id → (f (t.node id)).position = (t.node id).position)
    (hcomments : s.Has id → (f (t.node id)).comments = (t.node id).comments) :
    s.Keeps (t.update id f) := by
  have hnode : ∀ {α : Type} (g : Node → α), (s.Has id → g (f (t.node id)) = g (t.node id)) →
      ∀ other, s.Has other → g ((t.update id f).node other) = g (t.node other) := by
    intro α g hg other hother
    by_cases heq : other = id
    · subst heq
      exact proj_node_update (hg hother) other
    · rw [node_update_ne t heq]
  exact {
    size_le := by simpa using h.size_le
    loose_le := Nat.le_trans h.loose_le (Nat.le_of_eq (size_loose_update t id f).symm)
    root_eq := (root_update _ _ _).trans h.root_eq
    kind_eq := fun other hother =>
      (hnode (fun node => node.shape.kind) hkind other hother).trans (h.kind_eq other hother)
    roles_eq := fun other hother =>
      (hnode (fun node => node.kids.map Prod.fst) hroles other hother).trans
        (h.roles_eq other hother)
    position_eq := fun other hother =>
      (hnode Node.position hposition other hother).trans (h.position_eq other hother)
    comments_eq := fun other hother =>
      (hnode Node.comments hcomments other hother).trans (h.comments_eq other hother) }

theorem setParent (t : Tree) (id : NodeId) (up : Option NodeId) : t.Keeps (t.setParent id up) :=
  (refl t).update (fun _ => rfl) (fun _ => rfl) (fun _ => rfl) fun _ => rfl

theorem setRole (t : Tree) (id : NodeId) (role : Role) (occupants : Occupants NodeId) :
    t.Keeps (t.setRole id role occupants) :=
  (refl t).update (fun _ => rfl) (fun _ => map_fst_setKids _ _ _) (fun _ => rfl) fun _ => rfl

theorem setType (t : Tree) (id : NodeId) (type : Option Ty) : t.Keeps (t.setType id type) := by
  apply (refl t).update
  · exact fun _ => kind_node_withType _ type
  · exact fun _ => congrArg (List.map Prod.fst) (kids_withType _ type)
  · intro _
    unfold Node.withType
    split <;> rfl
  · intro _
    unfold Node.withType
    split <;> rfl

theorem setShape {shape : Shape} (hkind : shape.kind = t.kind id) : t.Keeps (t.setShape id shape) :=
  (refl t).update (fun _ => hkind) (fun _ => rfl) (fun _ => rfl) fun _ => rfl

theorem detachAll (t : Tree) (ids : List NodeId) : t.Keeps (t.detachAll ids) := by
  induction ids generalizing t with
  | nil => exact refl t
  | cons id rest ih => exact (setParent t id none).trans (ih (t.detach id))

theorem pushNode (t : Tree) (node : Node) : t.Keeps (t.pushNode node).2 where
  size_le := by simp
  loose_le := Nat.le_refl _
  root_eq := rfl
  kind_eq := fun id hid => by simp only [kind, shape, node_pushNode_old hid]
  roles_eq := fun id hid => by simp only [roles, node_pushNode_old hid]
  position_eq := fun id hid => by rw [node_pushNode_old hid]
  comments_eq := fun id hid => by rw [node_pushNode_old hid]

end Keeps

/-! ## Trees without comments -/

def Bare (t : Tree) : Prop :=
  ∀ id, (t.node id).comments = []

namespace Bare

theorem of_keeps (h : s.Bare) (hkeeps : s.Keeps t) (hhas : ∀ id, t.Has id → s.Has id) : t.Bare := by
  intro id
  by_cases hid : t.Has id
  · exact (hkeeps.comments_eq id (hhas id hid)).trans (h id)
  · rw [node_of_not_has hid]
    rfl

theorem update (h : t.Bare) (hf : (f (t.node id)).comments = (t.node id).comments) :
    (t.update id f).Bare :=
  fun other => (proj_node_update hf other).trans (h other)

theorem pushNode (h : t.Bare) {node : Node} (hnode : node.comments = []) :
    (t.pushNode node).2.Bare := by
  intro id
  by_cases hid : id = (t.pushNode node).1
  · rw [hid, node_pushNode_new]
    exact hnode
  · rw [node_pushNode_ne hid]
    exact h id

end Bare

/-! ## Nodes that stand -/

/-- The node is beneath an intact node that has no parent. -/
def Standing (t : Tree) (id : NodeId) : Prop :=
  ∃ top, t.parent top = none ∧ t.Intact top ∧ t.Beneath top id

namespace Standing

theorem of_top (hparent : t.parent id = none) (h : t.Intact id) : t.Standing id :=
  ⟨id, hparent, h, Beneath.refl⟩

theorem intact (h : t.Standing id) : t.Intact id := by
  obtain ⟨_, _, htop, hbelow⟩ := h
  exact htop.beneath hbelow

theorem has (h : t.Standing id) : t.Has id :=
  h.intact.has

theorem beneath (h : t.Standing id) (hbelow : t.Beneath id c) : t.Standing c := by
  obtain ⟨top, hparent, htop, hid⟩ := h
  exact ⟨top, hparent, htop, hid.trans hbelow⟩

theorem child (h : t.Standing id) (hchild : c ∈ t.children id) : t.Standing c :=
  h.beneath (Beneath.of_child hchild)

/-- The parent of a standing node stands too and has the node among its children. -/
theorem of_parent (h : t.Standing c) (hparent : t.parent c = some id) :
    t.Standing id ∧ c ∈ t.children id := by
  obtain ⟨top, htopParent, htop, hbelow⟩ := h
  have hne : c ≠ top := by
    intro heq
    rw [heq, htopParent] at hparent
    exact absurd hparent (by simp)
  obtain ⟨up, hup, habove, hchild⟩ := htop.holder ⟨hbelow, hne⟩
  rw [hparent] at hup
  have hsame : id = up := Option.some.inj hup
  subst hsame
  exact ⟨⟨top, htopParent, htop, habove⟩, hchild⟩

end Standing

/-- The tree proper is intact, and every node has the roles of its kind. -/
structure Sound (t : Tree) : Prop where
  tidy : t.Tidy
  intact : t.Intact t.root
  top : t.parent t.root = none

theorem Sound.standing (h : t.Sound) : t.Standing t.root :=
  .of_top h.top h.intact

/-! ## Disturbed and spared nodes -/

/-- From one tree to the next, only the nodes of a set are disturbed.  An undisturbed node that
stands goes on standing, without a parent if it had none, and only disturbed and new nodes get
beneath it.  An undisturbed parent lists its children unless it failed to do so before.  New nodes
have the roles of their kinds, and nothing brings comments into a tree that has none. -/
structure Spared (D : NodeId → Prop) (s t : Tree) : Prop where
  keeps : s.Keeps t
  fresh : ∀ a, t.Has a → ¬s.Has a → t.Laid a
  standing : ∀ a, s.Standing a → ¬D a → t.Standing a
  top : ∀ a, s.Standing a → ¬D a → s.parent a = none → t.parent a = none
  beneath : ∀ a b, s.Standing a → ¬D a → t.Beneath a b → s.Has b → s.Beneath a b ∨ D b
  listed : ∀ c up, s.Has c → s.Has up → ¬D up → t.parent c = some up →
    c ∈ t.children up ∨ (s.parent c = some up ∧ c ∉ s.children up)
  bare : s.Bare → t.Bare

namespace Spared

theorem tidy (h : Spared D s t) (hs : s.Tidy) : t.Tidy := by
  intro a ha
  by_cases hold : s.Has a
  · exact h.keeps.laid hold (hs a hold)
  · exact h.fresh a ha hold

theorem mono (h : Spared D s t) (hsub : ∀ a, s.Has a → D a → E a) : Spared E s t where
  keeps := h.keeps
  fresh := h.fresh
  standing := fun a ha hE => h.standing a ha fun hD => hE (hsub a ha.has hD)
  top := fun a ha hE => h.top a ha fun hD => hE (hsub a ha.has hD)
  beneath := fun a b ha hE hab hb =>
    (h.beneath a b ha (fun hD => hE (hsub a ha.has hD)) hab hb).imp_right (hsub b hb)
  listed := fun c up hc hup hE => h.listed c up hc hup fun hD => hE (hsub up hup hD)
  bare := h.bare

/-- Two changes in a row, where the second disturbs no more of the old nodes than the first. -/
theorem trans (hst : Spared D s t) (htu : Spared E t u) (hsub : ∀ a, s.Has a → E a → D a) :
    Spared D s u where
  keeps := hst.keeps.trans htu.keeps
  fresh := fun a ha hnew => by
    by_cases hmiddle : t.Has a
    · exact htu.keeps.laid hmiddle (hst.fresh a hmiddle hnew)
    · exact htu.fresh a ha hmiddle
  standing := fun a ha hD => htu.standing a (hst.standing a ha hD) fun hE => hD (hsub a ha.has hE)
  top := fun a ha hD hparent =>
    htu.top a (hst.standing a ha hD) (fun hE => hD (hsub a ha.has hE)) (hst.top a ha hD hparent)
  beneath := fun a b ha hD hab hb => by
    have hstep := htu.beneath a b (hst.standing a ha hD) (fun hE => hD (hsub a ha.has hE)) hab
      (hst.keeps.has hb)
    rcases hstep with hbelow | hE
    · exact hst.beneath a b ha hD hbelow hb
    · exact Or.inr (hsub b hb hE)
  listed := fun c up hc hup hD hparent => by
    have hstep := htu.listed c up (hst.keeps.has hc) (hst.keeps.has hup)
      (fun hE => hD (hsub up hup hE)) hparent
    rcases hstep with hlisted | ⟨hbefore, hunlisted⟩
    · exact Or.inl hlisted
    · rcases hst.listed c up hc hup hD hbefore with hlisted | hstale
      · exact absurd hlisted hunlisted
      · exact Or.inr hstale
  bare := fun hs => htu.bare (hst.bare hs)

/-- Standing follows from intactness where links are cut at most: an undisturbed node keeps its
parent or loses it.  Whatever is beneath a disturbed node has to count as disturbed here. -/
theorem of_links (hkeeps : s.Keeps t) (hfresh : ∀ a, t.Has a → ¬s.Has a → t.Laid a)
    (hclosed : ∀ a b, s.Standing a → D a → s.Beneath a b → D b)
    (hintact : ∀ a, s.Intact a → ¬D a → t.Intact a)
    (hparent : ∀ c, s.Has c → ¬D c → t.parent c = s.parent c ∨ t.parent c = none)
    (hbeneath : ∀ a b, s.Intact a → ¬D a → t.Beneath a b → s.Has b → s.Beneath a b ∨ D b)
    (hlisted : ∀ c up, s.Has c → s.Has up → ¬D up → t.parent c = some up →
      c ∈ t.children up ∨ (s.parent c = some up ∧ c ∉ s.children up))
    (hbare : s.Bare → t.Bare) : Spared D s t where
  keeps := hkeeps
  fresh := hfresh
  beneath := fun a b ha => hbeneath a b ha.intact
  listed := hlisted
  bare := hbare
  top := fun a ha hD hnone => by
    rcases hparent a ha.has hD with hsame | hcut
    · rw [hsame, hnone]
    · exact hcut
  standing := fun a ha hD => by
    obtain ⟨top, htopParent, htop, hbelow⟩ := ha
    have hstanding : s.Standing top := Standing.of_top htopParent htop
    -- Walk down from the top: a link on the way is either still there or has been cut, and below a
    -- cut link the subtree stands on its own.
    induction hbelow with
    | refl =>
      refine Standing.of_top ?_ (hintact top htop hD)
      rcases hparent top htop.has hD with hsame | hnone
      · rw [hsame, htopParent]
      · exact hnone
    | @tail up low hup hlow ih =>
      have hupS : s.Standing up := hstanding.beneath hup
      have hlowS : s.Standing low := hupS.child hlow
      have hupD : ¬D up := fun hdisturbed =>
        hD (hclosed up low hupS hdisturbed (Beneath.of_child hlow))
      rcases hparent low hlowS.has hD with hsame | hnone
      · rw [hupS.intact.parent_child hlow] at hsame
        rcases hlisted low up hlowS.has hupS.has hupD hsame with hin | hstale
        · exact (ih hupD).child hin
        · exact absurd hlow hstale.2
      · exact Standing.of_top hnone (hintact low hlowS.intact hD)

theorem of_same_links (hkeeps : s.Keeps t) (hhas : ∀ id, t.Has id → s.Has id)
    (hchildren : ∀ id, t.children id = s.children id) (hparent : ∀ id, t.parent id = s.parent id) :
      Spared D s t := by
  have hnothing : Spared (fun _ => False) s t := by
    apply of_links hkeeps
    · exact fun a ha hnew => absurd (hhas a ha) hnew
    · exact fun _ _ _ hfalse _ => hfalse
    · exact fun a ha _ => ha.transfer (fun _ => hkeeps.hasSlot) (fun b _ => hchildren b)
        fun b _ => hparent b
    · exact fun c _ _ => Or.inl (hparent c)
    · exact fun a b _ _ hab _ => Or.inl (hab.of_transfer fun b _ => hchildren b)
    · intro c up _ _ _ hup
      rw [hparent] at hup
      rw [hchildren]
      by_cases hc : c ∈ s.children up
      · exact Or.inl hc
      · exact Or.inr ⟨hup, hc⟩
    · exact fun hs => hs.of_keeps hkeeps hhas
  exact hnothing.mono fun _ _ hfalse => hfalse.elim

theorem refl (D : NodeId → Prop) (t : Tree) : Spared D t t :=
  of_same_links (Keeps.refl t) (fun _ => id) (fun _ => rfl) fun _ => rfl

end Spared

/-! ## Changes around one node -/

/-- What a change at a node may disturb: the nodes beneath it that have a parent.  A node without
one can neither be moved nor replaced. -/
def Reach (t : Tree) (id a : NodeId) : Prop :=
  t.Beneath id a ∧ t.parent a ≠ none

theorem Reach.of_within (h : t.Intact id) (hwithin : t.Within id a) : t.Reach id a := by
  obtain ⟨up, hup, _⟩ := h.holder hwithin
  exact ⟨hwithin.1, by simp [hup]⟩

theorem Reach.within_of_child (h : t.Intact id) (hchild : c ∈ t.children id)
    (hreach : t.Reach c a) : t.Within id a :=
  h.within_of_child hchild hreach.1

theorem Within.trans (h : t.Intact id) (hc : t.Within id c) (hbelow : t.Beneath c a) :
    t.Within id a := by
  refine ⟨hc.1.trans hbelow, ?_⟩
  intro heq
  subst heq
  exact hc.2 (h.beneath_antisymm hc.1 hbelow).symm

theorem Within.not_above (h : t.Intact a) (habove : t.Beneath a id) : ¬t.Within id a := by
  intro hwithin
  exact hwithin.2 (h.beneath_antisymm habove hwithin.1)

namespace Spared

theorem not_within_self : ¬s.Within id id := fun h => h.2 rfl

theorem within_of_within (h : Spared (s.Within id) s t) (hid : s.Standing id) (hb : s.Has b)
    (hwithin : t.Within id b) :
    s.Within id b := by
  rcases h.beneath id b hid not_within_self hwithin.1 hb with hbelow | hdisturbed
  · exact ⟨hbelow, hwithin.2⟩
  · exact hdisturbed

/-- Two changes beneath a node, one after the other, are a change beneath it. -/
theorem trans_within (hst : Spared (s.Within id) s t) (htu : Spared (t.Within id) t u)
    (hid : s.Standing id) :
    Spared (s.Within id) s u :=
  hst.trans htu fun _ ha hwithin => hst.within_of_within hid ha hwithin

theorem reach_of_within (h : Spared (s.Within id) s t) (hid : s.Intact id) :
    Spared (s.Reach id) s t :=
  h.mono fun _ _ hwithin => Reach.of_within hid hwithin

/-- A change that reaches no further than a child is one beneath the holder. -/
theorem within_of_child (h : Spared (s.Reach c) s t) (hid : s.Intact id)
    (hchild : c ∈ s.children id) :
    Spared (s.Within id) s t :=
  h.mono fun _ _ hreach => hreach.within_of_child hid hchild

end Spared

/-- A change beneath a node leaves the node standing. -/
theorem Standing.of_within (h : s.Standing id) (hspared : Spared (s.Within id) s t) :
    t.Standing id :=
  hspared.standing id h Spared.not_within_self

end UnitySharp.Tree
