import UnitySharp.Proofs.Pass.Turning
import UnitySharp.Proofs.Tree.WellLinked

/-!
# Passes that come to rest

That one run of a pass brings it to rest is shown in two halves: a property of terms which the run
establishes wherever it has been, and that visits have nothing to do where the property holds.  For
most passes the property is that each node by itself is calm, which is a matter of the node and its
children.
-/

namespace UnitySharp

open UnitySharp.Tree

variable {calm : Face → Kids Face → Prop} {origin : Option NodeId} {face : Face} {kids : Kids Term}
  {α : Type} {known : NodeId → Prop} {t : Tree} {id c : NodeId} {term : Term}

/-! ## Properties of nodes and their kids -/

def Term.kidFaces (term : Term) : Kids Face :=
  mapKids Term.face term.kids

/-- All nodes of a term have a property, which is one of a node and what its kids are. -/
def Term.Throughout (calm : Face → Kids Face → Prop) (term : Term) : Prop :=
  ∀ other, term.Occurs other → calm other.face other.kidFaces

theorem Term.throughout_node_iff :
    Throughout calm (.node origin face kids) ↔
      calm face (mapKids Term.face kids) ∧ ∀ kid ∈ allKids kids, Throughout calm kid := by
  constructor
  · intro h
    exact ⟨h _ (occurs_node_iff.mpr (Or.inl rfl)), fun kid hkid other hother =>
      h other (occurs_node_iff.mpr (Or.inr ⟨kid, hkid, hother⟩))⟩
  · rintro ⟨hnode, hkids⟩ other hother
    rcases occurs_node_iff.mp hother with rfl | ⟨kid, hkid, hother⟩
    · exact hnode
    · exact hkids kid hkid other hother

theorem kidsAt_setKids_or (role : Role) (occupants : Occupants α) (kids : Kids α) :
    kidsAt role (setKids role occupants kids) = occupants ∨
      kidsAt role (setKids role occupants kids) = .empty := by
  induction kids with
  | nil => exact Or.inr rfl
  | cons entry rest ih =>
    by_cases hrole : entry.1 = role
    · rw [setKids, if_pos hrole, kidsAt, if_pos hrole]
      exact Or.inl rfl
    · rw [setKids, if_neg hrole, kidsAt, if_neg hrole]
      exact ih

def boundIn (faces : Kids Face) : Option Symbol :=
  (kidsAt .target faces).one?.bind fun target => target.shape.symbol?

def typeIn? (faces : Kids Face) (role : Role) : Option (Option Ty) :=
  (kidsAt role faces).one?.bind Face.type?

namespace Tree

variable {s u : Tree} {a new : NodeId}

def kidFaces (t : Tree) (id : NodeId) : Kids Face :=
  mapKids (fun c => (t.node c).face) (t.node id).kids

theorem kidsAt_kidFaces (t : Tree) (id : NodeId) (role : Role) :
    kidsAt role (t.kidFaces id) = ((t.node id).kid role).map fun c => (t.node c).face :=
  kidsAt_mapKids ..

theorem one?_kidFaces (t : Tree) (id : NodeId) (role : Role) :
    (kidsAt role (t.kidFaces id)).one? = (t.only? id role).map fun c => (t.node c).face := by
  rw [kidsAt_kidFaces, Occupants.one?_map, only?]

theorem isEmpty_kidFaces (t : Tree) (id : NodeId) (role : Role) :
    (kidsAt role (t.kidFaces id)).isEmpty = t.lacks id role := by
  rw [kidsAt_kidFaces, lacks]
  cases (t.node id).kid role with
  | empty => rfl
  | one c => rfl
  | many cs => simp [Occupants.map, Occupants.isEmpty]

theorem toList_kidFaces (t : Tree) (id : NodeId) (role : Role) :
    (kidsAt role (t.kidFaces id)).toList = (t.listed id role).map fun c => (t.node c).face := by
  rw [kidsAt_kidFaces, Occupants.toList_map, listed, Node.kidList]

theorem binding_eq (t : Tree) (id : NodeId) : t.binding id = boundIn (t.kidFaces id) := by
  rw [boundIn, one?_kidFaces, binding]
  cases t.only? id .target <;> rfl

theorem typeIn?_kidFaces (t : Tree) (id : NodeId) (role : Role) :
    typeIn? (t.kidFaces id) role = (t.only? id role).bind fun c => (t.node c).type? := by
  rw [typeIn?, one?_kidFaces]
  cases t.only? id role <;> rfl

theorem update_self {f : Node → Node} (h : f (t.node id) = t.node id) : t.update id f = t := by
  have hstore : ∀ (nodes : Array Node) n, f (nodes.getD n default) = nodes.getD n default →
      nodes.modify n f = nodes := by
    intro nodes n hn
    refine Array.ext (by simp) fun i hi hi' => ?_
    rw [Array.getElem_modify]
    split
    · rename_i heq
      subst heq
      simpa [Array.getD, hi'] using hn
    · rfl
  cases id with
  | slot n => simp only [update, hstore t.nodes n h]
  | loose n => simp only [update, hstore t.loose n h]

theorem Inside.trans_turned (h : Inside s t id) (h' : Turned t u id new) (hid : s.Standing id) :
    Turned s u id new where
  spared := h.spared.reach_after_within h'.spared hid
  frame := by
    intro a ha hoff hne
    rw [h'.frame a (h.spared.keeps.has ha) (fun hbelow => hoff (h.beneath_back hid ha hbelow))
      (h.parent_eq ▸ hne)]
    exact h.frame a ha hoff
  holder := by
    intro p hp
    obtain ⟨hpS, hchild⟩ := hid.of_parent hp
    rw [h'.holder p (h.parent_eq.trans hp),
      h.frame p hpS.has (hpS.intact.not_beneath_of_child hchild)]
  top := fun hnone => h'.top (h.parent_eq.trans hnone)

namespace Reads

theorem shape_eq (h : t.Reads known term id) : t.shape id = term.face.shape :=
  congrArg Face.shape h.face_eq

theorem child (h : t.Reads known (.node origin face kids) id) (hc : c ∈ t.children id) :
    ∃ kid ∈ allKids kids, t.Reads known kid c :=
  h.kids.exists_left hc

theorem kidFaces_eq (h : t.Reads known term id) : t.kidFaces id = term.kidFaces :=
  (h.kids.mapKids_eq fun _ _ hread => hread.face_eq.symm).symm

theorem throughout {other : Term} (h : t.Reads known term id) (hcalm : term.Throughout calm)
    (hbelow : t.Beneath id a) (hother : t.Reads known other a) : other.Throughout calm := by
  obtain ⟨found, hoccurs, hfound⟩ := h.occurs_of_beneath hbelow
  rw [hother.unique hfound]
  exact fun inner hinner => hcalm inner (hoccurs.trans hinner)

end Reads

theorem exists_look (t : Tree) (known : NodeId → Prop) :
    ∃ look : NodeId → Term, ∀ a term, t.Reads known term a → t.Reads known (look a) a := by
  classical
  refine ⟨fun a => if h : ∃ term, t.Reads known term a then h.choose else .node none (t.node a).face
    [], ?_⟩
  intro a term hterm
  have hsome : ∃ term, t.Reads known term a := ⟨term, hterm⟩
  simpa only [dif_pos hsome] using hsome.choose_spec

end Tree

namespace Pass

variable {β : Type} {s : Session} {ground : Tree → Prop} {becomes : Term → Term → Prop}
  {visit : NodeId → Pass Unit} {goal rests : Term → Prop} {new : Draft} {rule : Rule} {role : Role}

/-! ## Visits that establish a property -/

def Becomes (ground : Tree → Prop) (known : NodeId → Prop) (becomes : Term → Term → Prop)
    (visit : NodeId → Pass Unit) : Prop :=
  ∀ s id term, ground s.tree → s.tree.Standing id → s.tree.Reads known term id →
    BecomesBy ground known (becomes term) (visit id) s id

theorem BecomesBy.stay (hground : ground s.tree) (hid : s.tree.Standing id)
    (hreads : s.tree.Reads known term id) (hgoal : goal term) :
    BecomesBy ground known goal (pure ()) s id :=
  Yields.pure ⟨hground, id, term, (Inside.refl _ _).turned hid, hreads, hgoal⟩

theorem BecomesBy.after {action : Pass Unit} {middle : Session}
    (h : BecomesBy ground known goal action middle id) (hinside : Inside s.tree middle.tree id)
    (hid : s.tree.Standing id) :
    Yields action middle fun _ after => ground after.tree ∧
      ∃ new term, Turned s.tree after.tree id new ∧ after.tree.Reads known term new ∧ goal term :=
  Yields.mono h fun _ _ ⟨hafter, new, term, hturned, hreads, hgoal⟩ =>
    ⟨hafter, new, term, hinside.trans_turned hturned hid, hreads, hgoal⟩

theorem Yields.andThen {action : Pass α} {next : Pass β} {middle : Unit → Session → Prop}
    {post : β → Session → Prop} (h : Yields (action >>= fun _ => Pure.pure ()) s middle)
    (hnext : ∀ after, middle () after → Yields next after post) :
    Yields (action >>= fun _ => next) s post := by
  have hsplit : (action >>= fun _ => next) = ((action >>= fun _ => Pure.pure ()) >>= fun _ =>
    next) := by
    simp only [bind_assoc, pure_bind]
  rw [hsplit]
  exact Yields.bind (Yields.mono h fun _ => hnext)

theorem replace_becomes {goal : Term → Prop} {new : Draft} (hground : Familiar known s.tree)
    (hid : s.tree.Standing id) (hplain : new.Plain) (hlaid : new.Laid s.tree)
    (htaken : s.tree.TakenFrom id new.parts)
    (hbelow : ∀ top, .whole top ∈ new.parts → s.tree.Beneath id top)
    (hgoal : ∀ look : NodeId → Term,
      (∀ top, .whole top ∈ new.parts → s.tree.Reads known (look top) top) → goal (new.term look)) :
    BecomesBy (Familiar known) known goal (replace id new >>= fun _ => pure ()) s id := by
  obtain ⟨look, hlook⟩ := s.tree.exists_look known
  have hlooked : Looked s.tree known look new.parts := by
    refine ⟨hground.known_has, fun top htop a ha => ?_, fun top htop => ?_⟩
    · exact (hid.intact.beneath ((hbelow top htop).trans ha)).hasSlot
    · obtain ⟨term, hterm⟩ := Reads.exists_of_intact known (hid.intact.beneath (hbelow top htop))
      exact hlook top term hterm
  refine Yields.bind (Yields.edit fun new' t' heq => Yields.pure ?_)
  obtain ⟨hturned, hreads⟩ := replace_turned hground.tidy hid hplain hlaid htaken hlooked heq
  exact ⟨hground.of_spared hturned.spared, new', _, hturned, hreads, hgoal look hlooked.reads⟩

theorem replace_fresh_becomes (hground : Familiar known s.tree) (hid : s.tree.Standing id)
    (hplain : new.Plain) (hlaid : new.Laid s.tree) (hparts : new.parts = [])
    (hgoal : ∀ look, goal (new.term look)) :
    BecomesBy (Familiar known) known goal (replace id new >>= fun _ => pure ()) s id := by
  refine replace_becomes hground hid hplain hlaid ?_ ?_ fun look _ => hgoal look
  · rw [hparts]
    exact TakenFrom.of_children hid.intact (List.nil_sublist _)
  · simp [hparts]

theorem descend_becomes_all (hvisit : Becomes ground known becomes visit) (hground : ground s.tree)
    (hid : s.tree.Standing id) (hreads : s.tree.Reads known (.node origin face kids) id) :
    Yields (descend visit id) s fun _ after => ground after.tree ∧ Inside s.tree after.tree id ∧
      ∃ others, KidsRel (fun new old => becomes old new) others kids ∧
        after.tree.Reads known (.node origin face others) id :=
  descend_becomes becomes hground hid hreads fun middle child term hmiddle hpartway _ hchild =>
    hvisit middle child term hmiddle ((hid.of_within hpartway.inside.spared).child hchild)

theorem forM_listed_becomes {action : NodeId → Pass Unit}
    (haction : Becomes (Familiar known) known becomes action) (hground : Familiar known s.tree)
    (hid : s.tree.Standing id) (hreads : s.tree.Reads known (.node origin face kids) id)
    (role : Role) :
    Yields ((s.tree.listed id role).forM action) s fun _ after => Familiar known after.tree ∧
      Inside s.tree after.tree id ∧ ∃ first,
        Occupants.Rel (fun new old => becomes old new) first (kidsAt role kids) ∧
        after.tree.Reads known (.node origin face (setKids role first kids)) id := by
  have hsub := s.tree.listed_sublist id role
  refine Yields.mono (forM_becomes known (fun c => c) (fun _ => becomes) hground hid ?_ ?_ ?_) ?_
  · simpa using hid.intact.nodup.sublist hsub
  · exact fun c hc => hsub.subset hc
  · intro c _ middle term hmiddle hpartway _ hc hterm
    exact haction middle c term hmiddle ((hid.of_within hpartway.inside.spared).child hc) hterm
  · rintro _ after ⟨hafter, σ, hturned, hdone⟩
    rw [List.map_id'] at hturned
    have hread : ∀ c ∈ (kidsAt role (s.tree.node id).kids).toList, ∃ other,
        after.tree.Reads known other (σ c) ∧ ∃ term, s.tree.Reads known term c ∧
        becomes term other := by
      intro c hc
      obtain ⟨term, _, hterm⟩ := hreads.child (hsub.subset hc)
      obtain ⟨other, hbecomes, hother⟩ := hdone c hc term hterm
      exact ⟨other, hother, term, hterm, hbecomes⟩
    obtain ⟨first, hfirst⟩ := Occupants.Rel.exists_occupants hread
    refine ⟨hafter, hturned.inside, first, ?_,
      hturned.reads_role hground.tidy hid hreads (fun _ hc => hc) ?_⟩
    · refine hfirst.join (hreads.kids.at_role role) fun new old c _ hnew hold => ?_
      obtain ⟨_, term, hterm, hbecomes⟩ := hnew
      rwa [hold.unique hterm]
    · have hmap := hfirst.map (f := fun term => term) (g := σ) fun _ _ _ _ h => h.1
      rwa [show first.map (fun term => term) =
        first by cases first <;> simp [Occupants.map]] at hmap

theorem visitWithin_becomes
    (hrule : ∀ visit, Becomes ground known becomes visit →
      Becomes ground known becomes (rule visit)) (depth : Nat) :
    Becomes ground known becomes (visitWithin rule depth) := by
  induction depth with
  | zero => exact fun _ _ _ _ _ _ => Yields.throw
  | succ depth ih => exact hrule _ ih

theorem everywhere_becomes
    (hrule : ∀ visit, Becomes ground known becomes visit →
      Becomes ground known becomes (rule visit))
    (hground : ground s.tree) (hsound : s.tree.Sound)
    (hterm : s.tree.Reads known term s.tree.root) :
    Yields (everywhere rule) s fun _ after => ground after.tree ∧ s.tree.SparesRoot after.tree ∧
      ∃ other, becomes term other ∧ after.tree.Reads known other after.tree.root := by
  have hroot : s.tree.Standing s.tree.root := hsound.standing
  refine Yields.read ?_
  refine Yields.mono (visitWithin_becomes hrule _ s s.tree.root term hground hroot hterm) ?_
  rintro _ after ⟨hafter, new, other, hturned, hreads, hbecomes⟩
  rw [hturned.top hsound.top, ← hturned.spared.keeps.root_eq] at hreads
  exact ⟨hafter, ⟨_, hturned.spared, fun hreach => hreach.2 hsound.top⟩, other, hbecomes, hreads⟩

/-! ## Visits that find nothing to do -/

def Answers (action : Pass α) (t : Tree) (answer : α) : Prop :=
  ∀ report, action ⟨t, report⟩ = .ok answer ⟨t, report⟩

abbrev Quiet (action : Pass Unit) (t : Tree) : Prop :=
  Answers action t ()

namespace Answers

variable {a : α} {b : β} {type : Option Ty}

theorem pure (a : α) : Answers (Pure.pure a) t a :=
  fun _ => rfl

theorem bind {action : Pass α} {next : α → Pass β} (h : Answers action t a)
    (hnext : Answers (next a) t b) :
    Answers (action >>= next) t b := by
  intro report
  show EStateM.bind action next _ = _
  rw [EStateM.bind, h report]
  exact hnext report

theorem tree : Answers Pass.tree t t :=
  fun _ => rfl

theorem read {next : Tree → Pass α} (h : Answers (next t) t a) : Answers (Pass.tree >>= next) t a :=
  bind tree h

theorem ofExcept {answer : Except Fault α} (h : answer = .ok a) :
    Answers (Pass.ofExcept answer) t a := by
  subst h
  exact pure a

theorem child (h : t.only? id role = some c) : Answers (Pass.child id role) t c := by
  refine bind tree (ofExcept ?_)
  rw [Tree.child, h]

theorem typeAt (h : (t.node id).type? = some type) : Answers (Pass.typeAt id) t type := by
  refine bind tree (ofExcept ?_)
  rw [Tree.typeAt, h]

theorem typeIn (honly : t.only? id role = some c) (h : (t.node c).type? = some type) :
    Answers (Pass.typeIn id role) t type := by
  refine bind tree (ofExcept ?_)
  rw [Tree.typeIn, Tree.child, honly]
  show t.typeAt c = _
  rw [Tree.typeAt, h]

theorem typeIn_kidFaces (h : typeIn? (t.kidFaces id) role = some type) :
    Answers (Pass.typeIn id role) t type := by
  rw [typeIn?_kidFaces, Option.bind_eq_some_iff] at h
  obtain ⟨c, honly, htype⟩ := h
  exact typeIn honly htype

end Answers

theorem Yields.typeIn_kidFaces {post : Option Ty → Session → Prop}
    (h : ∀ type, typeIn? (s.tree.kidFaces id) role = some type → post type s) :
    Yields (Pass.typeIn id role) s post := by
  refine Yields.typeIn_eq fun c type honly htype => h type ?_
  rw [typeIn?_kidFaces, honly]
  exact htype

theorem quiet_forM {items : List α} {action : α → Pass Unit}
    (h : ∀ item ∈ items, Quiet (action item) t) :
    Quiet (items.forM action) t := by
  induction items with
  | nil => exact Answers.pure ()
  | cons item items ih =>
    rw [List.forall_mem_cons] at h
    exact Answers.bind h.1 (ih h.2)

/-- Going down does nothing where no visit to a child does anything. -/
theorem quiet_descend (h : ∀ c ∈ t.children id, Quiet (visit c) t) :
    Quiet (descend visit id) t := by
  refine Answers.read (quiet_forM fun c hc => Answers.read ?_)
  split
  · exact h c hc
  · exact Answers.pure ()

theorem visitWithin_quiet (rests : NodeId → Prop)
    (hrule : ∀ visit id, rests id → (∀ c ∈ t.children id, rests c → Quiet (visit c) t) →
      Quiet (rule visit id) t)
    {depth : Nat} (hdepth : t.Shallow depth id) (hid : rests id) :
      Quiet (visitWithin rule depth id) t := by
  induction depth generalizing id with
  | zero => exact hdepth.elim
  | succ depth ih => exact hrule _ id hid fun c hc => ih (hdepth c hc)

theorem shallow_root (hintact : t.Intact t.root) : t.Shallow (8 * (t.size + 1)) t.root := by
  have hmore : ∀ more, t.Shallow (t.size + 1 + more) t.root := by
    intro more
    induction more with
    | zero => exact hintact.shallow
    | succ more ih => exact ih.succ
  have hdepth := hmore (7 * (t.size + 1))
  rwa [show t.size + 1 + 7 * (t.size + 1) = 8 * (t.size + 1) by omega] at hdepth

theorem everywhere_quiet (rests : NodeId → Prop)
    (hrule : ∀ visit id, rests id → (∀ c ∈ t.children id, rests c → Quiet (visit c) t) →
      Quiet (rule visit id) t)
    (hintact : t.Intact t.root) (hroot : rests t.root) : Quiet (everywhere rule) t :=
  Answers.read (visitWithin_quiet rests hrule (shallow_root hintact) hroot)

/-! ## One run brings a pass to rest -/

/-- One run of a pass spares the root and leaves a tree on which the pass has nothing to do. -/
def Settling (pass : Pass Unit) (s : Session) : Prop :=
  Yields pass s fun _ after => s.tree.SparesRoot after.tree ∧ Quiet pass after.tree

theorem everywhere_quiet_of_term
    (hrests : ∀ visit id term, t.Reads known term id → rests term →
      (∀ c ∈ t.children id, ∀ kid, t.Reads known kid c → rests kid → Quiet (visit c) t) →
        Quiet (rule visit id) t)
    (hintact : t.Intact t.root) (hterm : t.Reads known term t.root) (hrest : rests term) :
    Quiet (everywhere rule) t := by
  refine everywhere_quiet (fun id => ∃ term, t.Reads known term id ∧ rests term) ?_ hintact ⟨term,
    hterm, hrest⟩
  rintro visit id ⟨found, hfound, hrest⟩ hvisit
  exact hrests visit id found hfound hrest fun c hc kid hkid hkidRest =>
    hvisit c hc ⟨kid, hkid, hkidRest⟩

/-- A pass is at rest after a run that establishes a property with which its visits find nothing to
do. -/
theorem everywhere_settles
    (hrule : ∀ visit, Becomes (Familiar known) known becomes visit →
      Becomes (Familiar known) known becomes (rule visit))
    (hbecomes : ∀ old new, becomes old new → rests new)
    (hrests : ∀ t visit id term, t.Reads known term id → rests term →
      (∀ c ∈ t.children id, ∀ kid, t.Reads known kid c → rests kid → Quiet (visit c) t) →
        Quiet (rule visit id) t)
    (hknown : ∀ a, known a → s.tree.Has a) (hsound : s.tree.Sound) :
      Settling (everywhere rule) s := by
  obtain ⟨term, hterm⟩ := Reads.exists_of_intact known hsound.intact
  refine Yields.mono (everywhere_becomes hrule ⟨hsound.tidy, hknown⟩ hsound hterm) ?_
  rintro _ after ⟨_, hafter, other, hother, hreads⟩
  exact ⟨hafter, everywhere_quiet_of_term (hrests after.tree) (hafter.sound hsound).intact hreads
    (hbecomes term other hother)⟩

/-- Where each node by itself has to be calm, visits of calm nodes have nothing to do. -/
theorem everywhere_calms (becomes : Term → Term → Prop)
    (hrule : ∀ visit, Becomes (Familiar known) known becomes visit →
      Becomes (Familiar known) known becomes (rule visit))
    (hbecomes : ∀ old new, becomes old new → new.Throughout calm)
    (hcalm : ∀ t visit id, calm (t.node id).face (t.kidFaces id) →
      (∀ c ∈ t.children id, Quiet (visit c) t) → Quiet (rule visit id) t)
    (hknown : ∀ a, known a → s.tree.Has a) (hsound : s.tree.Sound) :
      Settling (everywhere rule) s := by
  refine everywhere_settles hrule hbecomes ?_ hknown hsound
  intro t visit id term hreads hrest hvisit
  have hnode := hrest term Relation.ReflTransGen.refl
  rw [← hreads.face_eq, ← hreads.kidFaces_eq] at hnode
  refine hcalm t visit id hnode fun c hc => ?_
  obtain ⟨kid, _, hkid⟩ := hreads.kids.exists_left hc
  exact hvisit c hc kid hkid (hreads.throughout hrest (Beneath.of_child hc) hkid)

/-! ## Rules that look at a node before its children -/

def Calms (calm : Face → Kids Face → Prop) (old new : Term) : Prop :=
  new.face = old.face ∧ new.Throughout calm

theorem calmFirst_settles
    (hrule : ∀ visit s id origin face kids post, Familiar known s.tree → s.tree.Standing id →
      s.tree.Reads known (.node origin face kids) id →
        (∀ middle others, Familiar known middle.tree →
          Inside s.tree middle.tree id → middle.tree.Reads known (.node origin face others) id →
      calm face (mapKids Term.face others) → Yields (descend visit id) middle post) →
        Yields (rule visit id) s post)
    (hquiet : ∀ t visit id, calm (t.node id).face (t.kidFaces id) → Quiet (descend visit id) t →
      Quiet (rule visit id) t)
    (hknown : ∀ a, known a → s.tree.Has a) (hsound : s.tree.Sound) :
      Settling (everywhere rule) s := by
  refine everywhere_calms (Calms calm) ?_ (fun _ _ h => h.2) ?_ hknown hsound
  · rintro visit hvisit s id ⟨origin, face, kids⟩ hground hid hreads
    refine hrule visit s id origin face kids _ hground hid hreads
      fun middle others hmiddle hinside hothers hcalm => ?_
    refine Yields.mono (descend_becomes_all hvisit hmiddle (hid.of_within hinside.spared) hothers)
      ?_
    rintro _ after ⟨hafter, hinside', laters, hlaters, hresult⟩
    refine ⟨hafter, id, _, (hinside.trans hinside' hid).turned hid, hresult, rfl,
      Term.throughout_node_iff.mpr ⟨?_, ?_⟩⟩
    · -- The visits of the children have left them what they are.
      rwa [hlaters.mapKids_eq fun _ _ h => h.1]
    · intro kid hkid
      obtain ⟨_, _, h⟩ := hlaters.exists_right hkid
      exact h.2
  · exact fun t visit id hcalm hvisit => hquiet t visit id hcalm (quiet_descend hvisit)

end Pass

end UnitySharp
