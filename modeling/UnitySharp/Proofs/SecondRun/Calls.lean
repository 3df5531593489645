import UnitySharp.Proofs.Document.Reading
import UnitySharp.Proofs.Pass.Casting

/-!
# Calls of operator methods and indexers at rest

What takes the place of a call is built over its arguments, each of them once and in their
order.  It is no call, or one that the visit of the children has seen, so one run leaves no call to
rewrite.
-/

namespace UnitySharp

open UnitySharp.Tree Pass List

variable {term new call : Term} {role : Role} {written : Term → Term → Prop}
  {plain : Kids Face → Prop} {t : Tree} {known : NodeId → Prop} {id : NodeId} {s : Session}
  {callee : Symbol}

/-! ## Terms with their calls rewritten -/

namespace Term

variable {origin : Option NodeId} {face : Face} {kids : Kids Term}

def listed (term : Term) (role : Role) : List Term :=
  (kidsAt role term.kids).toList

theorem mem_kids_of_listed {kid : Term} (h : kid ∈ term.listed role) : kid ∈ allKids term.kids :=
  (kidsAt_sublist_allKids role term.kids).subset h

def withType : Term → Option Ty → Term
  | .node origin face kids, type => .node origin (face.withType type) kids

/-- All calls of a term are rewritten, those in the parts of a call before the call itself. -/
def Restored (written : Term → Term → Prop) : Term → Term → Prop :=
  fold fun origin face _ restored new => ∃ others,
    KidsRel (fun other part => part other) others restored ∧
    if face.shape.kind = .invocation then written (.node origin face others) new else new =
    .node origin face others

variable {old : Term}

theorem restored_node_iff :
    Restored written (.node origin face kids) new ↔
      ∃ others, KidsRel (fun other kid => Restored written kid other) others kids ∧
        if face.shape.kind = .invocation then written (.node origin face others) new
        else new = .node origin face others := by
  rw [Restored, fold_node]
  simp only [KidsRel.mapKids_right_iff]

/-- If it is a call, its parts are such that it is not rewritten. -/
def CallIs (plain : Kids Face → Prop) (face : Face) (faces : Kids Face) : Prop :=
  face.shape.kind = .invocation → plain faces

theorem throughout_of_kind (hkind : face.shape.kind ≠ .invocation)
    (hkids : ∀ kid ∈ allKids kids, kid.Throughout (CallIs plain)) :
    Throughout (CallIs plain) (.node origin face kids) :=
  throughout_node_iff.mpr ⟨fun h => absurd h hkind, hkids⟩

theorem throughout_of_plain (hplain : plain call.kidFaces)
    (hkids : ∀ kid ∈ allKids call.kids, kid.Throughout (CallIs plain)) :
      call.Throughout (CallIs plain) := by
  obtain ⟨origin, face, kids⟩ := call
  exact throughout_node_iff.mpr ⟨fun _ => hplain, hkids⟩

theorem Restored.throughout (h : Restored written old new)
    (hwritten : ∀ call new, written call new →
      (∀ kid ∈ allKids call.kids, kid.Throughout (CallIs plain)) → new.Throughout (CallIs plain)) :
    new.Throughout (CallIs plain) := by
  induction old generalizing new with
  | node origin face kids ih =>
    obtain ⟨others, hothers, hnew⟩ := restored_node_iff.mp h
    have hkids : ∀ kid ∈ allKids others, kid.Throughout (CallIs plain) := fun kid hkid =>
      (hothers.exists_right hkid).elim fun part hpart => ih part hpart.1 hpart.2
    split at hnew
    · exact hwritten _ _ hnew hkids
    · rename_i hkind
      exact hnew ▸ throughout_of_kind hkind hkids

end Term

namespace Tree.Reads

variable {look : NodeId → Term}

variable (h : t.Reads known term id)

include h

theorem occupants_eq (hlook : ∀ c ∈ t.listed id role, t.Reads known (look c) c) :
    kidsAt role term.kids = ((t.node id).kid role).map look := by
  have hrole : Occupants.Rel (t.Reads known) (kidsAt role term.kids) ((t.node id).kid role) :=
    h.kids.at_role role
  unfold Tree.listed Node.kidList at hlook
  generalize kidsAt role term.kids = held at hrole
  generalize (t.node id).kid role = ids at hrole hlook
  cases hrole with
  | empty => rfl
  | one hread => exact congrArg Occupants.one (hread.unique (hlook _ (by simp [Occupants.toList])))
  | many hreads =>
    refine congrArg Occupants.many (forall₂_unique hreads ?_ fun _ _ _ _ h h' => h.unique h')
    exact forall₂_map_left_iff.mpr (forall₂_same.mpr hlook)

theorem listed_eq (hlook : ∀ c ∈ t.listed id role, t.Reads known (look c) c) :
    term.listed role = (t.listed id role).map look := by
  rw [Term.listed, h.occupants_eq hlook, Occupants.toList_map]
  rfl

theorem typeOf_eq : t.typeOf id = term.type := by
  rw [Term.type, ← h.face_eq]
  rfl

theorem position_eq : t.position id = term.face.position :=
  congrArg Face.position h.face_eq

theorem calm {calm : Face → Kids Face → Prop} {a : NodeId} (hcalm : term.Throughout calm)
    (hbelow : t.Beneath id a) :
    calm (t.node a).face (t.kidFaces a) := by
  obtain ⟨other, hoccurs, hother⟩ := h.occurs_of_beneath hbelow
  rw [hother.face_eq, hother.kidFaces_eq]
  exact hcalm other hoccurs

end Tree.Reads

/-- A tree with all its calls rewritten is another one. -/
def Tree.RestoredBy (written : Term → Term → Prop) (t u : Tree) : Prop :=
  ∃ old new, t.Reads t.Has old t.root ∧ u.Reads t.Has new u.root ∧ Term.Restored written old new

namespace Pass

variable {restore : NodeId → Pass Unit}

theorem replace_over {goal : Term → Prop} {new : Draft} (ids : List NodeId)
    (hground : Familiar known s.tree) (hid : s.tree.Standing id) (hplain : new.Plain)
    (hlaid : new.Laid s.tree) (hparts : new.parts = ids.map .whole)
    (htaken : s.tree.TakenFrom id (ids.map .whole)) (hbelow : ∀ c ∈ ids, s.tree.Beneath id c)
    (hgoal : ∀ look : NodeId → Term, (∀ c ∈ ids, s.tree.Reads known (look c) c) →
      goal (new.term look)) :
    BecomesBy (Familiar known) known goal (replace id new >>= fun _ => pure ()) s id := by
  refine replace_becomes hground hid hplain hlaid (hparts ▸ htaken) ?_ fun look hlook =>
    hgoal look ?_
  · exact fun top htop => hbelow top (by simpa [hparts] using htop)
  · exact fun c hc => hlook c (by simpa [hparts] using hc)

/-- A rule that deals with calls after everything in them. -/
def callsLast (restore : NodeId → Pass Unit) : Rule := fun visit id => do
  descend visit id
  if (← tree).kind id = .invocation then restore id

structure Rewrites (restore : NodeId → Pass Unit) (written : Term → Term → Prop)
    (plain : Kids Face → Prop) : Prop where
  becomes : ∀ {known s id call}, Familiar known s.tree → s.tree.Standing id →
    s.tree.Reads known call id → BecomesBy (Familiar known) known (written call) (restore id) s id
  throughout : ∀ {call new}, written call new →
    (∀ kid ∈ allKids call.kids, kid.Throughout (Term.CallIs plain)) →
    new.Throughout (Term.CallIs plain)

namespace Rewrites

variable (h : Rewrites restore written plain)

include h

theorem callsLast {visit : NodeId → Pass Unit}
    (hvisit : Becomes (Familiar known) known (Term.Restored written) visit) :
    Becomes (Familiar known) known (Term.Restored written) (callsLast restore visit) := by
  rintro s id ⟨origin, face, kids⟩ hground hid hreads
  refine Yields.bind (Yields.mono (descend_becomes_all hvisit hground hid hreads) ?_)
  rintro _ middle ⟨hmiddle, hinside, others, hothers, hresult⟩
  have hmid := hid.of_within hinside.spared
  refine Yields.read ?_
  rw [hresult.kind_eq]
  split
  · rename_i hkind
    have hcall := (h.becomes hmiddle hmid hresult).mono fun new hnew =>
      Term.restored_node_iff.mpr ⟨others, hothers, by rwa [if_pos hkind]⟩
    exact hcall.after hinside hid
  · rename_i hkind
    refine (BecomesBy.stay hmiddle hmid hresult ?_).after hinside hid
    exact Term.restored_node_iff.mpr ⟨others, hothers, by rw [if_neg hkind]⟩

theorem settles (hquiet : ∀ t id, plain (t.kidFaces id) → Quiet (restore id) t)
    (hsound : s.tree.Sound) :
    Settling (everywhere (Pass.callsLast restore)) s := by
  refine everywhere_calms _ (fun visit hvisit => h.callsLast hvisit) (fun _ _ hnew =>
    hnew.throughout fun _ _ => h.throughout) ?_ (fun _ => False.elim) hsound
  intro t visit id hcalm hvisit
  refine Answers.bind (quiet_descend hvisit) (Answers.read ?_)
  split
  · rename_i hkind
    exact hquiet t id (hcalm hkind)
  · exact Answers.pure ()

theorem everywhere {after : Session} (hsound : s.tree.Sound)
    (hrun : everywhere (Pass.callsLast restore) s = .ok () after) :
    s.tree.RestoredBy written after.tree ∧
    ∀ id, after.tree.Beneath after.tree.root id → after.tree.kind id = .invocation →
      plain (after.tree.kidFaces id) := by
  obtain ⟨old, hold⟩ := Reads.exists_of_intact s.tree.Has hsound.intact
  obtain ⟨_, _, new, hnew, hreads⟩ := everywhere_becomes (fun _ hvisit => h.callsLast hvisit)
    ⟨hsound.tidy, fun _ ha => ha⟩ hsound hold () after hrun
  exact ⟨⟨old, new, hold, hreads, hnew⟩, fun id =>
    hreads.calm (hnew.throughout fun _ _ => h.throughout)⟩

end Rewrites

end Pass

namespace OperatorCalls

/-- The parts of a call that stands for no operator. -/
def Plain (faces : Kids Face) : Prop :=
  ∀ callee, boundIn faces = some callee → meaning callee (kidsAt .arguments faces).toList.length =
    .ok .plainCall

theorem plain_kidFaces_iff : Plain (t.kidFaces id) ↔
    ∀ callee, t.binding id = some callee → meaning callee (t.listed id .arguments).length =
      .ok .plainCall := by
  simp only [Plain, binding_eq, toList_kidFaces, length_map]

inductive Written (call : Term) : Term → Prop where
  | binary {callee : Symbol} {op : String} {left right : Term}
      (hbound : boundIn call.kidFaces = some callee)
      (hmeaning : meaning callee 2 = .ok (.binary op))
      (harguments : call.listed .arguments = [left, right]) :
      Written call (.node none ⟨.binary op call.type, none, call.face.position, []⟩
        [(.left, .one left), (.right, .one right)])
  | unary {callee : Symbol} {op : String} {operand : Term}
      (hbound : boundIn call.kidFaces = some callee) (hmeaning : meaning callee 1 = .ok (.unary op))
      (harguments : call.listed .arguments = [operand]) :
      Written call (.node none ⟨.unary op (.bool false) call.type, none, call.face.position, []⟩
        [(.operand, .one operand)])
  | conversion {callee : Symbol} {operand : Term} (hbound : boundIn call.kidFaces = some callee)
      (hmeaning : meaning callee 1 = .ok .conversion)
        (harguments : call.listed .arguments = [operand]) :
      Written call (operand.withType call.type)
  | plainCall (hplain : Plain call.kidFaces) : Written call call

theorem Written.throughout (h : Written call new)
    (hkids : ∀ kid ∈ allKids call.kids, kid.Throughout (Term.CallIs Plain)) :
      new.Throughout (Term.CallIs Plain) := by
  have hargument : ∀ kid ∈ call.listed .arguments, kid.Throughout (Term.CallIs Plain) :=
    fun kid hkid => hkids kid (Term.mem_kids_of_listed hkid)
  cases h with
  | binary _ _ harguments | unary _ _ harguments =>
    rw [harguments] at hargument
    refine Term.throughout_of_kind (by simp [Shape.kind]) ?_
    simpa [allKids, Occupants.toList] using hargument
  | @conversion _ operand _ _ harguments =>
    obtain ⟨origin, face, kids⟩ := operand
    obtain ⟨hcalm, hkids⟩ :=
      Term.throughout_node_iff.mp (hargument (.node origin face kids) (by simp [harguments]))
    refine Term.throughout_node_iff.mpr ⟨fun hkind => hcalm ?_, hkids⟩
    rwa [kind_face_withType] at hkind
  | plainCall hplain => exact Term.throughout_of_plain hplain hkids

def Meaning.Takes : Meaning → Nat → Prop
  | .binary _, arity => arity = 2
  | .unary _, arity => arity = 1
  | .conversion, arity => arity = 1
  | .plainCall, _ => True

theorem meaning_takes {arity : Nat} {found : Meaning} (h : meaning callee arity = .ok found) :
    found.Takes arity := by
  unfold meaning at h
  split at h
  · obtain ⟨binaryOp, _, h⟩ := Except.bind_eq_ok h
    obtain ⟨unaryOp, _, h⟩ := Except.bind_eq_ok h
    split at h
    · cases h
      rfl
    · cases h
      rfl
    · cases h
      split
      · rfl
      · trivial
    · cases h
      trivial
  · cases h
    trivial

theorem restore_becomes (hground : Familiar known s.tree) (hid : s.tree.Standing id)
    (hreads : s.tree.Reads known call id) :
      BecomesBy (Familiar known) known (Written call) (restore id) s id := by
  have hbelow : ∀ c ∈ s.tree.listed id .arguments, s.tree.Beneath id c :=
    fun c hc => Beneath.of_child ((s.tree.listed_sublist id .arguments).subset hc)
  have htaken : s.tree.TakenFrom id ((s.tree.listed id .arguments).map .whole) :=
    TakenFrom.of_children hid.intact (s.tree.listed_sublist id .arguments)
  have hplainCall : (∀ callee, s.tree.binding id = some callee →
      meaning callee (s.tree.listed id .arguments).length = .ok .plainCall) →
      BecomesBy (Familiar known) known (Written call) (pure ()) s id := by
    intro hplain
    refine BecomesBy.stay hground hid hreads (.plainCall ?_)
    rwa [← hreads.kidFaces_eq, plain_kidFaces_iff]
  refine Yields.read ?_
  split
  · rename_i hnone
    exact hplainCall fun callee hcallee => by rw [hnone] at hcallee; cases hcallee
  · rename_i callee hcallee
    have hbound : boundIn call.kidFaces = some callee := by
      rw [← hreads.kidFaces_eq, ← Tree.binding_eq, hcallee]
    rw [hreads.typeOf_eq, hreads.position_eq]
    refine Yields.bind (Yields.ofExcept fun _ hfound => ?_)
    split
    · rename_i op left right harguments
      refine replace_over (s.tree.listed id .arguments) hground hid ?_ ?_ ?_ htaken hbelow
        fun look hlook => ?_
      · simp [Draft.binary, Draft.Plain, Draft.PlainKids, Draft.PlainOccupants]
      · simp [Draft.binary, Shape.kind, NodeKind.layout]
      · simp [Draft.binary, harguments]
      · have hlisted := hreads.listed_eq hlook
        rw [harguments] at hlisted hfound
        exact .binary hbound hfound hlisted
    · rename_i op operand harguments
      refine replace_over (s.tree.listed id .arguments) hground hid ?_ ?_ ?_ htaken hbelow
        fun look hlook => ?_
      · simp [Draft.unary, Draft.Plain, Draft.PlainKids, Draft.PlainOccupants]
      · simp [Draft.unary, Shape.kind, NodeKind.layout]
      · simp [Draft.unary, harguments]
      · have hlisted := hreads.listed_eq hlook
        rw [harguments] at hlisted hfound
        exact .unary hbound hfound hlisted
    · rename_i operand harguments
      have hchild : operand ∈ s.tree.children id :=
        (s.tree.listed_sublist id .arguments).subset (by simp [harguments])
      obtain ⟨⟨origin, face, kids⟩, _, hoperand⟩ := hreads.kids.exists_left hchild
      have hlisted : call.listed .arguments = (s.tree.listed id .arguments).map fun _ =>
        .node origin face kids :=
        hreads.listed_eq (by simpa [harguments] using hoperand)
      rw [harguments] at hlisted hfound
      -- Only the type of the operand changes, and it stays what it was in every other respect.
      obtain ⟨hinside, htyped⟩ := Casts.setType_reads call.type (hid.child hchild) hoperand
      replace hinside := (hinside.turned (hid.child hchild)).inside hid hchild
      have hid' := hid.of_within hinside.spared
      have hchild' : operand ∈ (s.tree.setType operand call.type).children id := by
        rwa [children_setType]
      refine Yields.bind (Yields.change ?_)
      refine BecomesBy.after (replace_over [operand] (hground.of_spared hinside.spared) hid' trivial
        trivial (by simp) (TakenFrom.child hid'.intact hchild') ?_ fun look hlook => ?_) hinside hid
      · simpa using Beneath.of_child hchild'
      · rw [Draft.term, (hlook operand (by simp)).unique htyped]
        exact .conversion hbound hfound hlisted
    · rename_i found _ _ hbinary hunary hconversion
      refine hplainCall fun other hother => ?_
      rw [hcallee] at hother
      cases hother
      have htakes := meaning_takes hfound
      cases found with
      | plainCall => exact hfound
      | binary op =>
        obtain ⟨left, right, heq⟩ := length_eq_two.mp htakes
        exact (hbinary op left right rfl heq).elim
      | unary op =>
        obtain ⟨operand, heq⟩ := length_eq_one_iff.mp htakes
        exact (hunary op operand rfl heq).elim
      | conversion =>
        obtain ⟨operand, heq⟩ := length_eq_one_iff.mp htakes
        exact (hconversion operand rfl heq).elim

theorem restore_quiet (hplain : Plain (t.kidFaces id)) : Quiet (restore id) t := by
  rw [plain_kidFaces_iff] at hplain
  refine Answers.read ?_
  cases hbinding : t.binding id with
  | none => exact Answers.pure ()
  | some callee => exact Answers.bind (Answers.ofExcept (hplain callee hbinding)) (Answers.pure ())

theorem rewrites : Rewrites restore Written Plain :=
  ⟨restore_becomes, Written.throughout⟩

theorem everywhere_settles (hsound : s.tree.Sound) : Settling (everywhere rule) s :=
  rewrites.settles (fun _ _ => restore_quiet) hsound

end OperatorCalls

namespace Indexers

/-- Whether a call of a method with some arguments is written with brackets. -/
def indexes (name : Name) (arity : Nat) : Bool :=
  (name.is "set_Item" && 2 ≤ arity) || (name.isAmong ["get_Item", "get_Chars"] && arity != 0)

def Plain (faces : Kids Face) : Prop :=
  ∀ target, (kidsAt .target faces).one? = some target →
    ∀ name callee type, target.shape = .memberAccess name (some callee) type →
      callee.kind = .method → indexes name (kidsAt .arguments faces).toList.length = false

theorem plain_kidFaces_iff : Plain (t.kidFaces id) ↔
    ∀ target, t.only? id .target = some target →
      ∀ name callee type, t.shape target = .memberAccess name (some callee) type →
        callee.kind = .method → indexes name (t.listed id .arguments).length = false := by
  simp only [Plain, one?_kidFaces, toList_kidFaces, length_map, Option.map_eq_some_iff,
    forall_exists_index, and_imp, forall_apply_eq_imp_iff₂]
  rfl

def indexer (holder : Occupants Term) (indices : List Term) (type : Option Ty)
    (position : Option Position) : Term :=
  .node none ⟨.indexer type, none, position, []⟩ [(.target, holder), (.indices, .many indices)]

inductive Written (call : Term) : Term → Prop where
  | read {target : Term} {name : Name} {callee : Symbol} {type : Option Ty}
      (htarget : kidsAt .target call.kids = .one target)
        (hname : name.isAmong ["get_Item", "get_Chars"] = true)
      (hmember : target.face.shape = .memberAccess name (some callee) type)
        (hmethod : callee.kind = .method)
      (harguments : call.listed .arguments ≠ []) :
      Written call (indexer (kidsAt .target target.kids) (call.listed .arguments) call.type
        call.face.position)
  | assigned {target value : Term} {indices : List Term} {name : Name} {callee : Symbol}
      {type : Option Ty} (htarget : kidsAt .target call.kids = .one target)
      (hname : name.is "set_Item" = true)
      (hmember : target.face.shape = .memberAccess name (some callee) type)
      (hmethod : callee.kind = .method) (harguments : call.listed .arguments = indices ++ [value])
      (hindices : indices ≠ []) :
      Written call (.node none ⟨.binary "=" value.type, none, call.face.position, []⟩
        [(.left, .one
          (indexer (kidsAt .target target.kids) indices value.type target.face.position)),
          (.right, .one value)])
  | plainCall (hplain : Plain call.kidFaces) : Written call call

theorem throughout_indexer {target : Term} {indices : List Term} (type : Option Ty)
    (position : Option Position) (htarget : target.Throughout (Term.CallIs Plain))
    (hindices : ∀ kid ∈ indices, kid.Throughout (Term.CallIs Plain)) :
    (indexer (kidsAt .target target.kids) indices type position).Throughout
    (Term.CallIs Plain) := by
  refine Term.throughout_of_kind (by simp [Shape.kind]) fun kid hkid => ?_
  obtain ⟨origin, face, kids⟩ := target
  simp only [allKids, flatMap_cons, flatMap_nil, append_nil, mem_append] at hkid
  rcases hkid with hkid | hkid
  · exact (Term.throughout_node_iff.mp htarget).2 kid
      ((kidsAt_sublist_allKids .target kids).subset hkid)
  · exact hindices kid hkid

theorem Written.throughout (h : Written call new)
    (hkids : ∀ kid ∈ allKids call.kids, kid.Throughout (Term.CallIs Plain)) :
      new.Throughout (Term.CallIs Plain) := by
  have hargument : ∀ kid ∈ call.listed .arguments, kid.Throughout (Term.CallIs Plain) :=
    fun kid hkid => hkids kid (Term.mem_kids_of_listed hkid)
  have htarget : ∀ target, kidsAt .target call.kids = .one target →
    target.Throughout (Term.CallIs Plain) :=
    fun target h =>
      hkids target
      ((kidsAt_sublist_allKids .target call.kids).subset (by simp [h, Occupants.toList]))
  cases h with
  | read h => exact throughout_indexer _ _ (htarget _ h) hargument
  | assigned h _ _ _ harguments =>
    simp only [harguments, forall_mem_append, forall_mem_singleton] at hargument
    refine Term.throughout_of_kind (by simp [Shape.kind]) ?_
    simpa [allKids, Occupants.toList] using ⟨throughout_indexer _ _ (htarget _ h) hargument.1,
      hargument.2⟩
  | plainCall hplain => exact Term.throughout_of_plain hplain hkids

theorem plain_keptIn (t : Tree) (id : NodeId) (role : Role) :
    Draft.PlainOccupants (t.keptIn id role) := by
  unfold Tree.keptIn
  cases (t.node id).kid role with
  | empty => trivial
  | one c => trivial
  | many cs => exact plainAll_map_kept cs

theorem termOccupants_keptIn (look : NodeId → Term) (t : Tree) (id : NodeId) (role : Role) :
    Draft.termOccupants look (t.keptIn id role) = ((t.node id).kid role).map look := by
  unfold Tree.keptIn
  cases (t.node id).kid role with
  | empty => rfl
  | one c => rfl
  | many cs => exact congrArg Occupants.many (termAll_map_kept look cs)

section

variable (t : Tree) (target : NodeId) (indices : List NodeId) (type : Option Ty)
  (position : Option Position)

abbrev keptIndexer : Draft :=
  .indexer (t.keptIn target .target) (indices.map .kept) type position

theorem plain_keptIndexer : (keptIndexer t target indices type position).Plain :=
  ⟨plain_keptIn t target .target, plainAll_map_kept indices, trivial⟩

theorem laid_keptIndexer : (keptIndexer t target indices type position).Laid t := by
  simp [keptIndexer, Draft.indexer, Shape.kind, NodeKind.layout, laid_keptIn]

theorem parts_keptIndexer :
    (keptIndexer t target indices type position).parts = (t.listed target .target ++ indices).map
      .whole := by
  simp [keptIndexer, Draft.indexer, parts_keptIn]

theorem term_keptIndexer (look : NodeId → Term) :
    (keptIndexer t target indices type position).term look =
    indexer (((t.node target).kid .target).map look) (indices.map look) type position := by
  simp only [keptIndexer, Draft.indexer, Draft.term, Draft.termKids, Draft.termOccupants,
    termOccupants_keptIn, termAll_map_kept, indexer]

end

theorem restore_becomes (hground : Familiar known s.tree) (hid : s.tree.Standing id)
    (hreads : s.tree.Reads known call id) :
      BecomesBy (Familiar known) known (Written call) (restore id) s id := by
  have hplainCall : Plain (s.tree.kidFaces id) →
    BecomesBy (Familiar known) known (Written call) (pure ()) s id :=
    fun hplain => BecomesBy.stay hground hid hreads (.plainCall (hreads.kidFaces_eq ▸ hplain))
  rw [plain_kidFaces_iff] at hplainCall
  refine Yields.read ?_
  split
  · rename_i hnone
    exact hplainCall fun target htarget => by rw [hnone] at htarget; cases htarget
  · rename_i target htarget
    have hchild := mem_children_of_only? htarget
    have htaken := taken hid.intact htarget
    have hbelow : ∀ c ∈ s.tree.listed target .target ++ s.tree.listed id .arguments,
      s.tree.Beneath id c := by
      intro c hc
      rcases mem_append.mp hc with hc | hc
      · exact (Beneath.of_child ((s.tree.listed_sublist target .target).subset hc)).below_child
          hchild
      · exact Beneath.of_child ((s.tree.listed_sublist id .arguments).subset hc)
    obtain ⟨held, hheld, hread⟩ : ∃ held, kidsAt .target call.kids = .one held ∧
      s.tree.Reads known held target := by
      cases call
      exact hreads.only htarget
    split
    · rename_i name callee type hshape
      have hmember : held.face.shape = .memberAccess name (some callee) type :=
        hread.shape_eq.symm.trans hshape
      replace hplainCall :
          (callee.kind = .method → indexes name (s.tree.listed id .arguments).length = false) →
          BecomesBy (Familiar known) known (Written call) (pure ()) s id := by
        intro hplain
        refine hplainCall fun target' htarget' name' callee' type' hshape' hmethod => ?_
        obtain rfl : target = target' := Option.some.inj (htarget.symm.trans htarget')
        rw [hshape] at hshape'
        cases hshape'
        exact hplain hmethod
      simp only [beq_iff_eq]
      split
      · rename_i hmethod
        split
        · rename_i hsets
          rw [Bool.and_eq_true, decide_eq_true_eq] at hsets
          split
          · rename_i value hvalue
            have hlast : s.tree.listed id .arguments = (s.tree.listed id .arguments).dropLast ++
              [value] :=
              (dropLast_append_getLast? value hvalue).symm
            refine Yields.bind (Yields.typeAt_eq fun type htype => ?_)
            refine replace_over _ hground hid ?_ ?_ ?_ htaken hbelow fun look hlook => ?_
            · exact ⟨plain_keptIndexer s.tree target _ type (s.tree.position target), trivial,
                trivial⟩
            · simp [-map_dropLast, Draft.binary, Shape.kind, NodeKind.layout, laid_keptIndexer]
            · nth_rewrite 2 [hlast]
              simp [-map_dropLast, Draft.binary, parts_keptIndexer]
            · rw [forall_mem_append] at hlook
              have hlisted := hreads.listed_eq hlook.2
              have hvalueReads := hlook.2 value (by rw [hlast]; simp)
              rw [hlast, map_append] at hlisted
              have hvalueType : type = (look value).type := by
                rw [← hvalueReads.typeOf_eq, Tree.typeOf, htype]
                rfl
              have hindices : (s.tree.listed id .arguments).dropLast.map look ≠ [] := by
                intro hnil
                rw [hlast, map_eq_nil_iff.mp hnil] at hsets
                exact absurd hsets.2 (by simp)
              have hwritten := Written.assigned hheld hsets.1 hmember hmethod hlisted hindices
              rw [hread.occupants_eq hlook.1] at hwritten
              simpa only [Draft.binary, Draft.term, Draft.termKids, Draft.termOccupants,
                term_keptIndexer, hvalueType, hreads.position_eq, hread.position_eq] using hwritten
          · rename_i hnone
            rw [getLast?_eq_none_iff] at hnone
            simp [hnone] at hsets
        · rename_i hsets
          split
          · rename_i hgets
            rw [Bool.and_eq_true] at hgets
            refine replace_over _ hground hid (plain_keptIndexer _ _ _ _ _)
              (laid_keptIndexer _ _ _ _ _) (parts_keptIndexer _ _ _ _ _) htaken hbelow
              fun look hlook => ?_
            rw [forall_mem_append] at hlook
            have hlisted := hreads.listed_eq hlook.2
            have hwritten :=
              Written.read hheld hgets.1 hmember hmethod (by rw [hlisted]; simpa using hgets.2)
            rwa [hread.occupants_eq hlook.1,
              hlisted, ← hreads.typeOf_eq, ← hreads.position_eq, ← term_keptIndexer] at hwritten
          · rename_i hgets
            refine hplainCall fun _ => ?_
            simp_all [indexes]
      · rename_i hmethod
        exact hplainCall fun h => absurd h hmethod
    · rename_i hother
      refine hplainCall fun target' htarget' name callee type hshape _ => ?_
      obtain rfl : target = target' := Option.some.inj (htarget.symm.trans htarget')
      exact (hother name callee type hshape).elim

theorem restore_quiet (hplain : Plain (t.kidFaces id)) : Quiet (restore id) t := by
  rw [plain_kidFaces_iff] at hplain
  refine Answers.read ?_
  cases htarget : t.only? id .target with
  | none => exact Answers.pure ()
  | some target =>
    simp only
    split
    · rename_i name callee type hshape
      simp only [beq_iff_eq]
      split
      · rename_i hmethod
        have hindexes := hplain target htarget name callee type hshape hmethod
        rw [indexes, Bool.or_eq_false_iff] at hindexes
        rw [if_neg (by simp [hindexes.1]), if_neg ?_]
        · exact Answers.pure ()
        · have hgets := hindexes.2
          simp_all
      · exact Answers.pure ()
    · exact Answers.pure ()

theorem rewrites : Rewrites restore Written Plain :=
  ⟨restore_becomes, Written.throughout⟩

theorem everywhere_settles (hsound : s.tree.Sound) : Settling (everywhere rule) s :=
  rewrites.settles (fun _ _ => restore_quiet) hsound

end Indexers

/-! ## Both passes -/

namespace OperatorCalls

/-- A static method that stands for an operator over so many operands. -/
def IsOperator (callee : Symbol) (operands : Nat) : Prop :=
  callee.kind = .method ∧ callee.isStatic = true ∧
    (operands = 2 ∧ callee.name.isAmong
        ((if isRuntimeHelper callee then runtimeMethods else binaryMethods).map Prod.fst) = true ∨
      operands = 1 ∧
        (callee.name.isAmong (unaryMethods.map Prod.fst) = true ∨
          callee.name.is "op_Implicit" = true))

instance (callee : Symbol) (operands : Nat) : Decidable (IsOperator callee operands) :=
  inferInstanceAs (Decidable (_ ∧ _))

theorem find?_ne_none {name : Name} {table : List (String × String)} {found : Option String}
    (hamong : name.isAmong (table.map Prod.fst) = true) (h : name.find? table = .ok found) :
      found ≠ none := by
  cases name with
  | other value => simp [Name.isAmong] at hamong
  | text word =>
    cases show List.lookup word table = found by simpa [Name.find?, Name.key?, Except.map] using h
    simpa [Name.isAmong, lookup_eq_none_iff] using hamong

theorem not_isOperator {operands : Nat} (h : meaning callee operands = .ok .plainCall) :
    ¬IsOperator callee operands := by
  rintro ⟨hkind, hstatic, hname⟩
  rw [meaning, if_pos (by simp [hkind, hstatic])] at h
  obtain ⟨binaryOp, hbinary, h⟩ := Except.bind_eq_ok h
  obtain ⟨unaryOp, hunary, h⟩ := Except.bind_eq_ok h
  rcases hname with ⟨rfl, hname⟩ | ⟨rfl, hname | hname⟩
  · cases binaryOp with
    | none => exact find?_ne_none hname hbinary rfl
    | some op => cases h
  · cases unaryOp with
    | none => exact find?_ne_none hname hunary rfl
    | some op => simp at h
  · cases unaryOp with
    | none => simp [hname] at h
    | some op => simp at h

end OperatorCalls

/-- The calls of operator methods and of indexers are all rewritten, however they are nested.  What
a call is rewritten to holds each of its arguments, and what is indexed, once and in their order. -/
theorem Tree.Sound.restores_calls {s after : Session} (hsound : s.tree.Sound) :
    (everywhere OperatorCalls.rule s = .ok () after →
      s.tree.RestoredBy OperatorCalls.Written after.tree ∧
      ∀ call callee, after.tree.Beneath after.tree.root call → after.tree.kind call = .invocation →
        after.tree.binding call = some callee →
          ¬OperatorCalls.IsOperator callee (after.tree.listed call .arguments).length) ∧
    (everywhere Indexers.rule s = .ok () after →
      s.tree.RestoredBy Indexers.Written after.tree ∧
      ∀ call target name callee type, after.tree.Beneath after.tree.root call →
        after.tree.kind call = .invocation → after.tree.only? call .target = some target →
          after.tree.shape target = .memberAccess name (some callee) type → callee.kind = .method →
            Indexers.indexes name (after.tree.listed call .arguments).length = false) := by
  constructor
  · intro hrun
    obtain ⟨hrestored, hplain⟩ := OperatorCalls.rewrites.everywhere hsound hrun
    refine ⟨hrestored, fun call callee hbelow hkind hbinding => ?_⟩
    exact OperatorCalls.not_isOperator
      (OperatorCalls.plain_kidFaces_iff.mp (hplain call hbelow hkind) callee hbinding)
  · intro hrun
    obtain ⟨hrestored, hplain⟩ := Indexers.rewrites.everywhere hsound hrun
    refine ⟨hrestored, fun call target name callee type hbelow hkind htarget hshape hmethod => ?_⟩
    exact Indexers.plain_kidFaces_iff.mp (hplain call hbelow hkind) target htarget name callee type
      hshape hmethod

/-- The statement `xs.set_Item(i, op_Addition(op_Implicit(xs.get_Item(op_UnaryNegation(i))),
xs))`. -/
def Json.callSample : Json :=
  let method (name : String) :=
    Json.record [("kind", .text "Method"), ("name", .text name), ("static", .bool true)]
  let name (word : String) := nodeOf "Reference" [("name", .text word)]
  let operator (symbol : Int) (arguments : List Json) := nodeOf "Invocation" [
    ("target", nodeOf "Reference" [("name", .text "op"), ("symbol", .int symbol)]),
      ("args", .list arguments)]
  let member (word : String) (arguments : List Json) := nodeOf "Invocation" [
    ("target", nodeOf "MemberAccess" [("target", name "xs"), ("name", .text word),
      ("symbol", .int 4)]),
    ("args", .list arguments)]
  methodDocument [("1", method "op_Addition"), ("2", method "op_Implicit"),
      ("3", method "op_UnaryNegation"), ("4", method "Item")]
    [nodeOf "ExpressionStatement" [("expr", member "set_Item" [name "i", operator 1 [
      operator 2 [member "get_Item" [operator 3 [name "i"]]], name "xs"]])]]

def Tree.callCount (t : Tree) : Nat :=
  (t.walk t.root).countP fun id => t.kind id == .invocation

theorem Tree.Sound.restores_calls_callSample : ∃ document operators indexers,
    readDocument Json.callSample .null = .ok document ∧ document.tree.callCount = 5 ∧
      everywhere OperatorCalls.rule ⟨document.tree, .ofVerbosity 0 none⟩ = .ok () operators ∧
      operators.tree.callCount = 2 ∧ document.tree.RestoredBy OperatorCalls.Written operators.tree ∧
      everywhere Indexers.rule ⟨document.tree, .ofVerbosity 0 none⟩ = .ok () indexers ∧
      indexers.tree.callCount = 3 ∧ document.tree.RestoredBy Indexers.Written indexers.tree := by
  obtain ⟨document, hread, h⟩ :=
    Json.exists_of_holds (show Json.callSample.holds (fun t => t.callCount == 5 &&
      (Session.mk t (.ofVerbosity 0 none)).runsTo (everywhere OperatorCalls.rule) (fun _ after =>
        after.tree.callCount == 2) &&
    (Session.mk t (.ofVerbosity 0 none)).runsTo (everywhere Indexers.rule) fun _ after =>
      after.tree.callCount == 3) = true
    by decide +kernel)
  simp only [Bool.and_eq_true, beq_iff_eq] at h
  obtain ⟨_, operators, hoperators, hleft⟩ := Session.exists_of_runsTo h.1.2
  obtain ⟨_, indexers, hindexers, hleft'⟩ := Session.exists_of_runsTo h.2
  have hsound := readDocument_sound hread
  exact ⟨document, operators, indexers, hread, h.1.1, hoperators, beq_iff_eq.mp hleft,
    ((Sound.restores_calls hsound).1 hoperators).1, hindexers, beq_iff_eq.mp hleft',
    ((Sound.restores_calls hsound).2 hindexers).1⟩

end UnitySharp
