import UnitySharp.Proofs.Pass.Rewriting
import UnitySharp.Proofs.Pass.Settling
import UnitySharp.Proofs.Tree.Lineage

/-!
# Iterators at rest

A visit of a `yield` changes the method around it, which is above the node.  A method without a
return type gets one that stays, and nothing new yields.
-/

namespace UnitySharp

open UnitySharp.Tree Pass List

namespace Tree

variable {t t' : Tree} {p : NodeId} {role : Role} {shape : Shape} {position : Option Position}

theorem put_leaf (hp : t.Has p) (h : t.put p role (some (.fresh shape position [])) = .ok t') :
    ∃ id, (t'.node p).kid role = .one id ∧ (t'.node id).shape = shape ∧ ∀ a, t'.Has a → ¬t.Has a →
      a = id := by
  unfold put at h
  split at h
  · rename_i hrole
    split at h
    · cases h
    · rename_i hmany
      simp only [plant_leaf, Except.ok.injEq] at h
      subst h
      generalize hdetached : t.detachAll _ = u
      have hhas : ∀ a, u.Has a ↔ t.Has a := fun a => by rw [← hdetached, has_detachAll]
      have hkids : (u.node p).kids = (t.node p).kids := by rw [← hdetached, kids_detachAll]
      refine ⟨(u.pushNode (bareNode shape position (some p))).1, ?_, ?_, ?_⟩
      · refine kid_setRole_self (has_pushNode_of_has ((hhas p).mpr hp) _) ?_ _
        rw [node_pushNode_old ((hhas p).mpr hp), hkids]
        exact hrole
      · refine (proj_node_update (g := Node.shape) ?_ _).trans ?_
        · rfl
        · rw [node_pushNode_new]
          rfl
      · intro a ha hnot
        rw [setRole, has_update, has_pushNode] at ha
        rw [← hhas] at hnot
        exact ha.resolve_right hnot
  · cases h

end Tree

namespace Iterators

variable {s t u : Tree} {a id : NodeId} {visit : NodeId → Pass Unit}

def Declares (t : Tree) (id : NodeId) : Prop :=
  ∃ c type, t.only? id .returnType = some c ∧ (t.node c).type? = some (some type) ∧
    type.isVoid = false

def isOwner (kind : NodeKind) : Bool :=
  kind.isMethod || kind == .closure

/-- The method that a node belongs to, if any, has a return type. -/
def Served (t : Tree) (id : NodeId) : Prop :=
  ∀ owner, t.ancestor? isOwner id = some owner → t.kind owner = .method → Declares t owner

/-- What a run of the pass can do to a tree. -/
structure Declared (s t : Tree) : Prop where
  spared : ∀ D, Spared D s t
  parent : ∀ a, s.Has a → t.parent a = s.parent a ∨ t.parent a = none
  declares : ∀ a, s.Standing a → Declares s a → Declares t a
  fresh : ∀ a, t.Has a → ¬s.Has a → t.kind a = .typeRef

namespace Declared

theorem refl (t : Tree) : Declared t t where
  spared := fun D => Spared.refl D t
  parent := fun _ _ => Or.inl rfl
  declares := fun _ _ h => h
  fresh := fun _ h hnot => absurd h hnot

theorem trans (h : Declared s t) (h' : Declared t u) : Declared s u where
  spared := fun D => (h.spared D).trans (h'.spared D) fun _ _ hD => hD
  parent := by
    intro a ha
    rcases h'.parent a ((h.spared fun _ => False).keeps.has ha) with hsame | hnone
    · rw [hsame]
      exact h.parent a ha
    · exact Or.inr hnone
  declares := fun a ha hdeclares =>
    h'.declares a ((h.spared fun _ => False).standing a ha fun h => h) (h.declares a ha hdeclares)
  fresh := by
    intro a ha hnot
    by_cases hmiddle : t.Has a
    · rw [(h'.spared fun _ => False).keeps.kind_eq a hmiddle]
      exact h.fresh a hmiddle hnot
    · exact h'.fresh a ha hmiddle

theorem standing (h : Declared s t) (ha : s.Standing a) : t.Standing a :=
  (h.spared fun _ => False).standing a ha fun h => h

theorem kind_eq (h : Declared s t) (ha : s.Has a) : t.kind a = s.kind a :=
  (h.spared fun _ => False).keeps.kind_eq a ha

theorem ancestor?_eq_or (h : Declared s t) (ha : s.Standing a) (holds : NodeKind → Bool) :
    t.ancestor? holds a = s.ancestor? holds a ∨ t.ancestor? holds a = none := by
  obtain ⟨ups, hups, hnodup, habove⟩ := ha.exists_lineage
  obtain ⟨ups', hups', hnodup', habove'⟩ := (h.standing ha).exists_lineage
  rw [hups.ancestor?_eq (nodup_cons.mp hnodup).2 fun up hup =>
    (habove up (mem_cons_of_mem _ hup)).1, hups'.ancestor?_eq (nodup_cons.mp hnodup').2
    fun up hup => (habove' up (mem_cons_of_mem _ hup)).1]
  have hhas : ∀ up ∈ a :: ups, s.Has up := fun up hup => (habove up hup).1.has
  clear * - h hups hups' hhas
  -- The chain of parents in the later tree is the beginning of the one in the earlier tree.
  induction hups generalizing ups' with
  | @top a hnone =>
    rcases h.parent a (hhas a mem_cons_self) with hsame | hcut
    · cases hups' with
      | top _ => exact Or.inl rfl
      | up hsome _ => rw [hsame, hnone] at hsome; cases hsome
    · cases hups' with
      | top _ => exact Or.inl rfl
      | up hsome _ => rw [hcut] at hsome; cases hsome
  | @up a p ups hsome hrest ih =>
    cases hups' with
    | top _ => exact Or.inr rfl
    | @up _ p' ups' hsome' hrest' =>
      rcases h.parent a (hhas a mem_cons_self) with hsame | hcut
      · obtain rfl : p = p' := by
          rw [hsame, hsome] at hsome'
          exact Option.some.inj hsome'
        rw [find?_cons, find?_cons, h.kind_eq (hhas p (by simp))]
        cases holds (s.kind p) with
        | true => exact Or.inl rfl
        | false => exact ih ups' hrest' fun up hup => hhas up (mem_cons_of_mem _ hup)
      · rw [hcut] at hsome'
        cases hsome'

theorem served (h : Declared s t) (ha : s.Standing a) (hserved : Served s a) : Served t a := by
  intro owner howner hmethod
  rcases h.ancestor?_eq_or ha isOwner with hsame | hnone
  · rw [hsame] at howner
    have hstanding := (ancestor?_above ha howner).1
    rw [h.kind_eq hstanding.has] at hmethod
    exact h.declares owner hstanding (hserved owner howner hmethod)
  · rw [hnone] at howner
    cases howner

end Declared

theorem put_declared {owner : NodeId} {s : Session} {post : Unit → Session → Prop}
    (howner : s.tree.Standing owner)
    (h : ∀ after, Declared s.tree after.tree → Declares after.tree owner → post () after) :
    Yields (Pass.put owner .returnType (.typeRef Ty.enumerator)) s post := by
  refine Yields.put fun t hput => ?_
  obtain ⟨id, hkid, hnode, hedited⟩ :=
    put_edited howner hput (by simp [Draft.typeRef, Shape.kind, NodeKind.layout]) []
    (by simpa [Draft.typeRef] using Supplied.nil s.tree owner _)
  obtain ⟨new, hnew, hshape, honly⟩ := put_leaf howner.has hput
  obtain rfl : id = new := by
    rw [hkid] at hnew
    cases hnew
    rfl
  have hdeclares : Declares t owner := by
    refine ⟨id, Ty.enumerator, by rw [only?, hkid]; rfl, ?_, by decide⟩
    rw [Node.type?, hshape]
    rfl
  -- Old nodes are what they were, and only the method has other children.
  have hsame : ∀ a, s.tree.Has a → (t.node a).face = (s.tree.node a).face ∧
      (a ≠ owner → (t.node a).kids = (s.tree.node a).kids) := by
    intro a ha
    by_cases howner : a = owner
    · subst howner
      rw [hnode]
      exact ⟨rfl, fun h => absurd rfl h⟩
    · by_cases hgone : a ∈ (s.tree.node owner).kidList .returnType
      · rw [hedited.detached a hgone not_drawn_nil]
        exact ⟨rfl, fun _ => rfl⟩
      · rw [hedited.frame a ha not_drawn_nil hgone howner]
        exact ⟨rfl, fun _ => rfl⟩
  refine h _ ⟨hedited.undisturbed, ?_, ?_, ?_⟩ hdeclares
  · intro a ha
    by_cases howner : a = owner
    · subst howner
      exact Or.inl hedited.parent_eq
    · by_cases hgone : a ∈ (s.tree.node owner).kidList .returnType
      · exact Or.inr (hedited.cut hgone not_drawn_nil)
      · rw [Tree.parent, hedited.frame a ha not_drawn_nil hgone howner]
        exact Or.inl rfl
  · rintro a ha ⟨c, type, honly, htype, hvoid⟩
    by_cases howner : a = owner
    · subst howner
      exact hdeclares
    · refine ⟨c, type, ?_, ?_, hvoid⟩
      · rwa [only?, Node.kid, (hsame a ha.has).2 howner]
      · have hc := (ha.child (mem_children_of_only? honly)).has
        rwa [← Node.type?_face, (hsame c hc).1, Node.type?_face]
  · intro a ha hnot
    rw [honly a ha hnot, Tree.kind, Tree.shape, hshape]
    rfl

theorem declareIterator_serves {s : Session} (hid : s.tree.Standing id) :
    Yields (declareIterator id) s fun _ after => Declared s.tree after.tree ∧
      Served after.tree id := by
  have hunchanged : Served s.tree id →
      Yields (pure ()) s fun _ after => Declared s.tree after.tree ∧ Served after.tree id :=
    fun hserved => Yields.pure ⟨Declared.refl _, hserved⟩
  refine Yields.read ?_
  split
  · rename_i hnone
    refine hunchanged fun owner howner => ?_
    rw [show s.tree.ancestor? isOwner id = none from hnone] at howner
    cases howner
  · rename_i owner howner
    have hstanding := (ancestor?_above hid howner).1
    have hserved : (s.tree.kind owner = .method → Declares s.tree owner) → Served s.tree id := by
      intro hdeclares other hother hmethod
      obtain rfl : owner = other := Option.some.inj (howner.symm.trans hother)
      exact hdeclares hmethod
    have hput : Yields (Pass.put owner .returnType (.typeRef Ty.enumerator)) s fun _ after =>
        Declared s.tree after.tree ∧ Served after.tree id := by
      refine put_declared hstanding fun after hdeclared hdeclares =>
        ⟨hdeclared, fun other hother _ => ?_⟩
      rcases hdeclared.ancestor?_eq_or hid isOwner with hsame | hnone
      · obtain rfl : owner = other := Option.some.inj (howner.symm.trans (hsame.symm.trans hother))
        exact hdeclares
      · rw [hnone] at hother
        cases hother
    split
    · simp only
      split
      · exact Yields.bind (Yields.pure hput)
      · refine Yields.bind (Yields.typeIn_eq fun c declared honly htype => ?_)
        split
        · rename_i type
          refine Yields.bind (Yields.pure ?_)
          split
          · exact hput
          · rename_i hvoid
            exact hunchanged (hserved fun _ => ⟨c, type, honly, htype, by simpa using hvoid⟩)
        · exact Yields.bind Yields.throw
    · rename_i hmethod
      exact hunchanged (hserved fun h => absurd h hmethod)

theorem declareIterator_quiet (h : Served t id) : Quiet (declareIterator id) t := by
  refine Answers.read ?_
  split
  · exact Answers.pure ()
  · rename_i owner howner
    split
    · rename_i hmethod
      obtain ⟨c, type, honly, htype, hvoid⟩ := h owner howner hmethod
      have hlacks : t.lacks owner .returnType = false := by
        rw [lacks, kid_of_only? honly]
        rfl
      simp only [hlacks, Bool.false_eq_true, if_false]
      refine Answers.bind (Answers.typeIn honly htype) (Answers.bind (Answers.pure _) ?_)
      rw [if_neg (by simp [hvoid])]
      exact Answers.pure ()
    · exact Answers.pure ()

/-- All that yields beneath a node has been dealt with. -/
def Serves (t : Tree) (id : NodeId) : Prop :=
  ∀ a, t.Beneath id a → t.kind a = .yieldStatement → Served t a

theorem Declared.serves (h : Declared s t) (hid : s.Standing id) (hserves : Serves s id) :
    Serves t id := by
  intro a ha hyield
  by_cases hhas : s.Has a
  · have hbelow := ((h.spared fun _ => False).beneath id a hid (fun h => h) ha hhas).resolve_right
      fun h => h
    refine h.served (hid.beneath hbelow) (hserves a hbelow ?_)
    rwa [h.kind_eq hhas] at hyield
  · rw [h.fresh a ((h.standing hid).beneath ha).has hhas] at hyield
    cases hyield

theorem Declared.serves_new (h : Declared s t) (hid : t.Has id) (hnot : ¬s.Has id) :
    Serves t id := by
  have hkind := h.fresh id hid hnot
  have hleaf : t.children id = [] :=
    ((h.spared fun _ => False).fresh id hid hnot).children_eq_nil (by rw [hkind]; rfl)
  intro a ha hyield
  rcases Relation.ReflTransGen.cases_head ha with rfl | ⟨c, hc, _⟩
  · rw [hkind] at hyield
    cases hyield
  · have hmem : c ∈ t.children id := hc
    rw [hleaf] at hmem
    cases hmem

/-- Visits deal with everything beneath a node. -/
def Settles (visit : NodeId → Pass Unit) : Prop :=
  ∀ s id, s.tree.Standing id →
    Yields (visit id) s fun _ after => Declared s.tree after.tree ∧ Serves after.tree id

theorem descend_settles {s : Session} (hvisit : Settles visit) (hid : s.tree.Standing id) :
    Yields (descend visit id) s fun _ after => Declared s.tree after.tree ∧
      ∀ c ∈ after.tree.children id, Serves after.tree c := by
  have hfrom : ∀ (items : List NodeId) middle, (∀ c ∈ items, c ∈ s.tree.children id) →
      Declared s.tree middle.tree →
      Yields (items.forM fun c => do if (← tree).parent c == some id then visit c) middle
      fun _ after =>
        Declared middle.tree after.tree ∧ ∀ c ∈ items, after.tree.parent c = some id →
          Serves after.tree c := by
    intro items
    induction items with
    | nil => exact fun middle _ _ => Yields.pure ⟨Declared.refl _, by simp⟩
    | cons c rest ih =>
      intro middle hitems hmiddle
      rw [forall_mem_cons] at hitems
      have hc := hmiddle.standing (hid.child hitems.1)
      refine Yields.bind (Yields.read ?_)
      split
      · refine Yields.mono (hvisit middle c hc) ?_
        rintro _ next ⟨hnext, hserves⟩
        refine Yields.mono (ih next hitems.2 (hmiddle.trans hnext)) ?_
        rintro _ after ⟨hafter, hrest⟩
        exact ⟨hnext.trans hafter, forall_mem_cons.mpr
          ⟨fun _ => hafter.serves (hnext.standing hc) hserves, hrest⟩⟩
      · rename_i hparent
        refine Yields.pure (Yields.mono (ih middle hitems.2 hmiddle) ?_)
        rintro _ after ⟨hafter, hrest⟩
        refine ⟨hafter, forall_mem_cons.mpr ⟨fun hagain => ?_, hrest⟩⟩
        rcases hafter.parent c hc.has with hsame | hnone
        · exact absurd (hsame.symm.trans hagain) (by simpa using hparent)
        · rw [hnone] at hagain
          cases hagain
  refine Yields.read (Yields.mono (hfrom _ s (fun _ hc => hc) (Declared.refl _)) ?_)
  rintro _ after ⟨hafter, hserves⟩
  refine ⟨hafter, fun c hc => ?_⟩
  have hchild := (hafter.standing hid).child hc
  have hparent := (hafter.standing hid).intact.parent_child hc
  by_cases hhas : s.tree.Has c
  · have hbelow :=
      ((hafter.spared fun _ => False).beneath id c hid (fun h => h) (Beneath.of_child hc)
        hhas).resolve_right
      fun h => h
    refine hserves c ?_ hparent
    rcases hafter.parent c hhas with hsame | hnone
    · exact ((hid.beneath hbelow).of_parent (hsame.symm.trans hparent)).2
    · rw [hnone] at hparent
      cases hparent
  · exact hafter.serves_new hchild.has hhas

theorem rule_settles (hvisit : Settles visit) : Settles (rule visit) := by
  intro s id hid
  have hfinish : ∀ middle, Declared s.tree middle.tree →
      (middle.tree.kind id = .yieldStatement → Served middle.tree id) →
      Yields (descend visit id) middle fun _ after => Declared s.tree after.tree ∧
      Serves after.tree id := by
    intro middle hmiddle hserved
    have hmid := hmiddle.standing hid
    refine Yields.mono (descend_settles hvisit hmid) ?_
    rintro _ after ⟨hafter, hserves⟩
    refine ⟨hmiddle.trans hafter, fun a ha hyield => ?_⟩
    rcases Relation.ReflTransGen.cases_head ha with rfl | ⟨c, hc, hbelow⟩
    · rw [hafter.kind_eq hmid.has] at hyield
      exact hafter.served hmid (hserved hyield)
    · exact hserves c hc a hbelow hyield
  refine Yields.read ?_
  simp only
  split
  · refine Yields.bind (Yields.mono (declareIterator_serves hid) ?_)
    rintro _ middle ⟨hmiddle, hserved⟩
    exact hfinish middle hmiddle fun _ => hserved
  · rename_i hkind
    exact hfinish s (Declared.refl _) fun hyield => absurd hyield hkind

theorem visitWithin_settles (depth : Nat) : Settles (visitWithin rule depth) := by
  induction depth with
  | zero => exact fun _ _ _ => Yields.throw
  | succ depth ih => exact rule_settles ih

theorem everywhere_settles {s : Session} (hsound : s.tree.Sound) :
    Settling (everywhere rule) s := by
  have hroot : s.tree.Standing s.tree.root := hsound.standing
  refine Yields.read (Yields.mono (visitWithin_settles _ s s.tree.root hroot) ?_)
  rintro _ after ⟨hafter, hserves⟩
  have hkeeps := (hafter.spared fun _ => False).keeps
  rw [← hkeeps.root_eq] at hserves
  have hafterRoot : after.tree.Standing after.tree.root := hkeeps.root_eq ▸ hafter.standing hroot
  refine ⟨⟨fun _ => False, hafter.spared _, fun h => h⟩, ?_⟩
  refine everywhere_quiet (fun id => after.tree.Beneath after.tree.root id) ?_ hafterRoot.intact
    Beneath.refl
  intro visit id hid hvisit
  have hdescend := quiet_descend fun c hc => hvisit c hc (hid.tail hc)
  refine Answers.read ?_
  simp only
  split
  · rename_i hyield
    exact Answers.bind (declareIterator_quiet (hserves id hid hyield)) hdescend
  · exact hdescend

end Iterators

end UnitySharp
