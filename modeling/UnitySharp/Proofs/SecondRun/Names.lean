import UnitySharp.Convert.Step
import UnitySharp.Proofs.Pass.Settling

/-!
# Names of types at rest

These passes look at a node before its children and replace children only.  What decides about a
node is what its children are, and a visit of the children leaves them what they are.
-/

namespace UnitySharp

open UnitySharp.Tree Pass

variable {known : NodeId → Prop} {s : Session} {t : Tree} {id : NodeId} {origin : Option NodeId}
  {face : Face} {kids : Kids Term} {visit : NodeId → Pass Unit} {post : Unit → Session → Prop}

/-! ## What a node names -/

def Face.namedSymbol? (face : Face) : Option Symbol :=
  match face.shape with
  | .reference _ symbol _ => symbol
  | .memberAccess _ symbol _ => symbol
  | _ => none

def Face.namedType? (face : Face) : Option Ty :=
  match face.namedSymbol? with
  | some symbol => if symbol.kind = .type then symbol.type <|> face.type?.join else none
  | none => none

theorem Tree.namedType?_eq (t : Tree) (id : NodeId) :
    t.namedType? id = (t.node id).face.namedType? := rfl

namespace TypeValues

variable {term : Term}

theorem restore_becomes :
    Becomes (Familiar known) known (fun _ new => new.face.namedType? = none) restore := by
  intro s id term hground hid hreads
  refine Yields.read ?_
  split
  · refine replace_fresh_becomes hground hid ?_ ?_ ?_ fun look => ?_
    · exact ⟨trivial, trivial⟩
    · simp [Draft.typeOf, Draft.typeRef, Shape.kind, NodeKind.layout]
    · simp [Draft.typeOf, Draft.typeRef]
    · rfl
  · rename_i hnone
    refine BecomesBy.stay hground hid hreads ?_
    rwa [namedType?_eq, hreads.face_eq] at hnone

theorem restore_quiet (hnone : (t.node id).face.namedType? = none) : Quiet (restore id) t := by
  refine Answers.read ?_
  rw [namedType?_eq, hnone]
  exact Answers.pure ()

def declared? (face : Face) (faces : Kids Face) : Option (Option Ty) :=
  if (kidsAt .typeRef faces).isEmpty then some (face.shape.symbol?.bind (·.type)) else typeIn? faces
    .typeRef

def Unnamed (faces : Kids Face) (role : Role) : Prop :=
  ∀ face, (kidsAt role faces).one? = some face → face.namedType? = none

/-- Where a value of a type is to stand in a role, the type can be told and there is nothing to be
written. -/
def Meets (type? : Option (Option Ty)) (faces : Kids Face) (role : Role) : Prop :=
  ∃ type, type? = some type ∧ (type == some Ty.systemType → Unnamed faces role)

def takesValues (faces : Kids Face) : Bool :=
  (boundIn faces).any fun callee => callee.kind == .method || callee.kind == .constructor

def Calm (face : Face) (faces : Kids Face) : Prop :=
  match face.shape with
  | .invocation _ => takesValues faces → ∀ argument ∈ (kidsAt .arguments faces).toList,
      argument.namedType? = none
  | .attribute _ => ∀ argument ∈ (kidsAt .arguments faces).toList, argument.namedType? = none
  | .binary op _ => op.is "=" → Meets (typeIn? faces .left) faces .right
  | .declaration _ _ | .field _ _ _ => Meets (declared? face faces) faces .initializer
  | _ => True

theorem restoreInRole_quiet {role : Role} (h : Unnamed (t.kidFaces id) role) :
    Quiet (restoreInRole id role) t := by
  refine Answers.read ?_
  cases honly : t.only? id role with
  | none => exact Answers.pure ()
  | some c => exact restore_quiet (h _ (by rw [one?_kidFaces, honly]; rfl))

theorem forM_restore_quiet (h : ∀ argument ∈ (kidsAt .arguments (t.kidFaces id)).toList,
      argument.namedType? = none) :
    Quiet ((t.listed id .arguments).forM restore) t := by
  refine quiet_forM fun c hc => restore_quiet (h _ ?_)
  rw [toList_kidFaces]
  exact List.mem_map_of_mem hc

theorem declaredType_answers {type : Option Ty}
    (h : declared? (t.node id).face (t.kidFaces id) = some type) :
    Answers (declaredType id) t type := by
  refine Answers.read ?_
  rw [declared?, isEmpty_kidFaces] at h
  split at h
  · rename_i hlacks
    cases h
    rw [if_pos hlacks]
    exact Answers.pure _
  · rename_i hlacks
    rw [if_neg hlacks]
    exact Answers.typeIn_kidFaces h

theorem declared_quiet {next : Pass Unit}
    (h : Meets (declared? (t.node id).face (t.kidFaces id)) (t.kidFaces id) .initializer)
    (hnext : Quiet next t) :
    Quiet (do
      if (← declaredType id) == some Ty.systemType then
        restoreInRole id .initializer
        next
      else next) t := by
  obtain ⟨type, htype, hvalue⟩ := h
  refine Answers.bind (declaredType_answers htype) ?_
  split
  · rename_i hsystem
    exact Answers.bind (restoreInRole_quiet (hvalue hsystem)) hnext
  · exact hnext

theorem rule_quiet (hcalm : Calm (t.node id).face (t.kidFaces id))
    (hdescend : Quiet (descend visit id) t) :
    Quiet (rule visit id) t := by
  refine Answers.read ?_
  unfold Calm at hcalm
  rw [show (t.node id).face.shape = t.shape id from rfl] at hcalm
  simp only
  split
  · rename_i hshape
    simp only [hshape] at hcalm
    split
    · rename_i htakes
      rw [Tree.binding_eq] at htakes
      exact Answers.bind (forM_restore_quiet (hcalm htakes)) hdescend
    · exact hdescend
  · rename_i hshape
    simp only [hshape] at hcalm
    exact Answers.bind (forM_restore_quiet hcalm) hdescend
  · rename_i op _ hshape
    simp only [hshape] at hcalm
    split
    · rename_i hassigns
      obtain ⟨type, htype, hvalue⟩ := hcalm hassigns
      refine Answers.bind (Answers.typeIn_kidFaces htype) ?_
      split
      · rename_i hsystem
        exact Answers.bind (restoreInRole_quiet (hvalue hsystem)) hdescend
      · exact hdescend
    · exact hdescend
  · rename_i hshape
    simp only [hshape] at hcalm
    exact declared_quiet hcalm hdescend
  · rename_i hshape
    simp only [hshape] at hcalm
    exact declared_quiet hcalm hdescend
  · exact hdescend

theorem restoreInRole_yields (hground : Familiar known s.tree) (hid : s.tree.Standing id)
    (hreads : s.tree.Reads known (.node origin face kids) id) (role : Role) :
    Yields (restoreInRole id role) s fun _ after => Familiar known after.tree ∧
      Inside s.tree after.tree id ∧ ∃ first,
        after.tree.Reads known (.node origin face (setKids role first kids)) id ∧
        Unnamed (mapKids Term.face (setKids role first kids)) role := by
  refine Yields.read ?_
  split
  · rename_i c honly
    refine Yields.mono (child_becomes (fun _ new => new.face.namedType? = none) hground.tidy hid
      honly hreads fun term hterm =>
      restore_becomes s c term hground (hid.child (mem_children_of_only? honly)) hterm) ?_
    rintro _ after ⟨hafter, hinside, term, other, _, _, hnone, hresult⟩
    refine ⟨hafter, hinside, .one other, hresult, fun face hface => ?_⟩
    rw [kidsAt_mapKids, Occupants.one?_map] at hface
    rcases kidsAt_setKids_or role (.one other) kids with heq | heq <;> rw [heq] at hface <;>
      cases hface
    exact hnone
  · rename_i hnone
    refine Yields.pure ⟨hground, Inside.refl _ _, kidsAt role kids, ?_, ?_⟩
    · rwa [setKids_kidsAt]
    · rw [setKids_kidsAt]
      intro face hface
      rw [show mapKids Term.face kids = _ from hreads.kidFaces_eq.symm, one?_kidFaces,
        hnone] at hface
      cases hface

theorem forM_restore_yields (hground : Familiar known s.tree) (hid : s.tree.Standing id)
    (hreads : s.tree.Reads known (.node origin face kids) id) :
    Yields ((s.tree.listed id .arguments).forM restore) s fun _ after => Familiar known after.tree ∧
      Inside s.tree after.tree id ∧
        ∃ first, after.tree.Reads known (.node origin face (setKids .arguments first kids)) id ∧
          ∀ argument ∈ (kidsAt .arguments
            (mapKids Term.face (setKids .arguments first kids))).toList,
            argument.namedType? = none := by
  refine Yields.mono (forM_listed_becomes restore_becomes hground hid hreads .arguments) ?_
  rintro _ after ⟨hafter, hinside, first, hfirst, hresult⟩
  refine ⟨hafter, hinside, first, hresult, fun argument hargument => ?_⟩
  rw [kidsAt_mapKids, Occupants.toList_map, List.mem_map] at hargument
  obtain ⟨term, hterm, rfl⟩ := hargument
  rcases kidsAt_setKids_or .arguments first kids with heq | heq
  · rw [heq] at hterm
    obtain ⟨_, _, hnone⟩ := exists_of_forall₂ hfirst.toList.flip hterm
    exact hnone
  · rw [heq] at hterm
    cases hterm

theorem declaredType_eq {post : Option Ty → Session → Prop}
    (h : ∀ type, declared? (s.tree.node id).face (s.tree.kidFaces id) = some type → post type s) :
    Yields (declaredType id) s post := by
  unfold declared? at h
  rw [isEmpty_kidFaces] at h
  refine Yields.read ?_
  split
  · rename_i hlacks
    exact Yields.pure (h _ (if_pos hlacks))
  · rename_i hlacks
    rw [if_neg hlacks] at h
    exact Yields.typeIn_kidFaces h

theorem declared_calms {next : Pass Unit} {post : Unit → Session → Prop}
    (hground : Familiar known s.tree) (hid : s.tree.Standing id)
    (hreads : s.tree.Reads known (.node origin face kids) id)
    (hnext : ∀ middle others, Familiar known middle.tree → Inside s.tree middle.tree id →
      middle.tree.Reads known (.node origin face others) id →
        Meets (declared? face (mapKids Term.face others)) (mapKids Term.face others) .initializer →
        Yields next middle post) :
    Yields (do
      if (← declaredType id) == some Ty.systemType then
        restoreInRole id .initializer
        next
      else next) s post := by
  refine Yields.bind (declaredType_eq fun type htype => ?_)
  rw [hreads.face_eq, hreads.kidFaces_eq, Term.face_node, Term.kidFaces, Term.kids_node] at htype
  split
  · refine Yields.bind (Yields.mono (restoreInRole_yields hground hid hreads .initializer) ?_)
    rintro _ middle ⟨hmiddle, hinside, first, hresult, hnone⟩
    refine hnext middle _ hmiddle hinside hresult ⟨type, ?_, fun _ => hnone⟩
    rwa [declared?, typeIn?, mapKids_setKids, kidsAt_setKids_ne (by decide)]
  · rename_i hsystem
    exact hnext s kids hground (Inside.refl _ _) hreads ⟨type, htype, fun h => absurd h hsystem⟩

theorem rule_calms {visit : NodeId → Pass Unit} {post : Unit → Session → Prop}
    (hground : Familiar known s.tree) (hid : s.tree.Standing id)
    (hreads : s.tree.Reads known (.node origin face kids) id)
    (hnext : ∀ middle others, Familiar known middle.tree → Inside s.tree middle.tree id →
        middle.tree.Reads known (.node origin face others) id →
        Calm face (mapKids Term.face others) → Yields (descend visit id) middle post) :
    Yields (rule visit id) s post := by
  have hunchanged : Calm face (mapKids Term.face kids) → Yields (descend visit id) s post :=
    hnext s kids hground (Inside.refl _ _) hreads
  have hfaces : s.tree.kidFaces id = mapKids Term.face kids := hreads.kidFaces_eq
  refine Yields.read ?_
  rw [hreads.shape_eq, Term.face_node]
  unfold Calm at hnext hunchanged
  simp only
  split
  · rename_i hshape
    simp only [hshape] at hnext hunchanged
    split
    · refine Yields.bind (Yields.mono (forM_restore_yields hground hid hreads) ?_)
      rintro _ middle ⟨hmiddle, hinside, first, hresult, hnone⟩
      exact hnext middle _ hmiddle hinside hresult fun _ => hnone
    · rename_i htakes
      rw [Tree.binding_eq, hfaces] at htakes
      exact hunchanged fun h => absurd h htakes
  · rename_i hshape
    simp only [hshape] at hnext hunchanged
    refine Yields.bind (Yields.mono (forM_restore_yields hground hid hreads) ?_)
    rintro _ middle ⟨hmiddle, hinside, first, hresult, hnone⟩
    exact hnext middle _ hmiddle hinside hresult hnone
  · rename_i op _ hshape
    simp only [hshape] at hnext hunchanged
    split
    · refine Yields.bind (Yields.typeIn_kidFaces fun type htype => ?_)
      rw [hfaces] at htype
      split
      · refine Yields.bind (Yields.mono (restoreInRole_yields hground hid hreads .right) ?_)
        rintro _ middle ⟨hmiddle, hinside, first, hresult, hnone⟩
        refine hnext middle _ hmiddle hinside hresult fun _ => ⟨type, ?_, fun _ => hnone⟩
        rwa [typeIn?, mapKids_setKids, kidsAt_setKids_ne (by decide)]
      · rename_i hsystem
        exact hunchanged fun _ => ⟨type, htype, fun h => absurd h hsystem⟩
    · rename_i hassigns
      exact hunchanged fun h => absurd h hassigns
  · rename_i hshape
    simp only [hshape] at hnext
    exact declared_calms hground hid hreads hnext
  · rename_i hshape
    simp only [hshape] at hnext
    exact declared_calms hground hid hreads hnext
  · rename_i hother
    refine hunchanged ?_
    split <;> simp_all

theorem everywhere_settles (hsound : s.tree.Sound) : Settling (everywhere rule) s :=
  calmFirst_settles (fun _ _ _ _ _ _ _ hground hid hreads hnext =>
    rule_calms hground hid hreads hnext) (fun _ _ _ hcalm hdescend => rule_quiet hcalm hdescend)
    (fun _ => False.elim) hsound

end TypeValues

namespace StaticMembers

variable {member : Symbol}

def isValue (face : Face) : Bool :=
  match face.shape.symbol? with
  | some bound => bound.kind != .type || face.shape.kind == .selfRef
  | none => face.shape.kind == .selfRef

theorem isInstance_eq (t : Tree) (target : NodeId) :
    isInstance t target = isValue (t.node target).face := rfl

def declaring? (member : Symbol) (target : Face) : Option (Option Ty) :=
  match member.declaring with
  | some type => some (some type)
  | none => target.type?

def Stays (member : Symbol) (target : Face) : Prop :=
  isStaticMember member && isValue target → ∃ declaring, declaring? member target = some declaring ∧
    ∀ type, declaring = some type → type.name = extensionClass

def Calm (face : Face) (faces : Kids Face) : Prop :=
  ∀ name member type, face.shape = .memberAccess name (some member) type →
    ∀ target, (kidsAt .target faces).one? = some target → Stays member target

theorem rule_quiet (hcalm : Calm (t.node id).face (t.kidFaces id))
    (hdescend : Quiet (descend visit id) t) :
    Quiet (rule visit id) t := by
  refine Answers.read ?_
  simp only
  split
  · rename_i name member type hshape
    split
    · rename_i target htarget
      have hstays :=
        hcalm name member type hshape (t.node target).face (by rw [one?_kidFaces, htarget]; rfl)
      rw [isInstance_eq]
      split
      · rename_i hreached
        obtain ⟨declaring, hdeclaring, hextension⟩ := hstays hreached
        -- A type that may not be named changes nothing, and neither does one that is not known.
        have hkept : ∀ type : Ty, declaring = some type → Quiet
            (if (type.name != extensionClass) = true then do
              let _ ← Pass.replace target (.typeName type (t.position target))
              Pass.descend visit id
            else Pass.descend visit id) t := by
          intro type htype
          rw [if_neg (by simp [hextension type htype])]
          exact hdescend
        rw [declaring?] at hdeclaring
        cases hmember : member.declaring with
        | some type =>
          rw [hmember] at hdeclaring
          cases hdeclaring
          exact Answers.bind (Answers.pure _) (hkept type rfl)
        | none =>
          rw [hmember] at hdeclaring
          refine Answers.bind (Answers.typeAt hdeclaring) ?_
          cases declaring with
          | none => exact hdescend
          | some type => exact hkept type rfl
      · exact hdescend
    · exact hdescend
  · exact hdescend

theorem isValue_typeName (type : Ty) (position : Option Position) (look : NodeId → Term) :
    isValue ((Draft.typeName type position).term look).face = false := rfl

theorem rule_calms {visit : NodeId → Pass Unit} {post : Unit → Session → Prop}
    (hground : Familiar known s.tree) (hid : s.tree.Standing id)
    (hreads : s.tree.Reads known (.node origin face kids) id)
    (hnext : ∀ middle others, Familiar known middle.tree → Inside s.tree middle.tree id →
        middle.tree.Reads known (.node origin face others) id →
        Calm face (mapKids Term.face others) → Yields (descend visit id) middle post) :
    Yields (rule visit id) s post := by
  have hfaces : s.tree.kidFaces id = mapKids Term.face kids := hreads.kidFaces_eq
  have hunchanged : Calm face (s.tree.kidFaces id) → Yields (descend visit id) s post :=
    fun hcalm =>
    hnext s kids hground (Inside.refl _ _) hreads (hfaces ▸ hcalm)
  refine Yields.read ?_
  simp only
  split
  · rename_i name member type hshape
    rw [hreads.shape_eq, Term.face_node] at hshape
    split
    · rename_i target htarget
      have hstanding := hid.child (mem_children_of_only? htarget)
      have hcalm : Stays member (s.tree.node target).face → Calm face (s.tree.kidFaces id) := by
        intro hstays name' member' type' hshape' face' hface'
        rw [hshape] at hshape'
        cases hshape'
        rw [one?_kidFaces, htarget] at hface'
        cases hface'
        exact hstays
      split
      · rename_i hreached
        have hnamed : ∀ type : Ty, declaring? member (s.tree.node target).face = some (some type) →
            Yields (if (type.name != extensionClass) = true then do
              let _ ← Pass.replace target (.typeName type (s.tree.position target))
              Pass.descend visit id
            else Pass.descend visit id) s post := by
          intro type hdeclaring
          split
          · refine Yields.andThen (child_becomes (fun _ new => isValue new.face = false)
              hground.tidy hid htarget hreads fun _ _ =>
                replace_fresh_becomes hground hstanding ?_ ?_ ?_ (isValue_typeName type _)) ?_
            · trivial
            · simp [Draft.typeName, Shape.kind, NodeKind.layout]
            · simp [Draft.typeName]
            · rintro middle ⟨hmiddle, hinside, _, other, _, _, hvalue, hresult⟩
              refine hnext middle _ hmiddle hinside hresult fun _ _ _ _ face' hface' => ?_
              rw [kidsAt_mapKids, Occupants.one?_map] at hface'
              rcases kidsAt_setKids_or .target (.one other) kids with heq | heq <;>
                rw [heq] at hface' <;> cases hface'
              intro hreached
              rw [Bool.and_eq_true] at hreached
              exact absurd hreached.2 (by simp [hvalue])
          · rename_i hextension
            refine hunchanged (hcalm fun _ => ⟨some type, hdeclaring, ?_⟩)
            rintro other ⟨⟩
            simpa using hextension
        split
        · rename_i type hmember
          exact Yields.bind (Yields.pure (hnamed type (by rw [declaring?, hmember])))
        · rename_i hmember
          refine Yields.bind (Yields.typeAt_eq fun declaring htype => ?_)
          have hdeclaring : declaring? member (s.tree.node target).face = some declaring := by
            rw [declaring?, hmember]
            exact htype
          cases declaring with
          | none => exact hunchanged (hcalm fun _ => ⟨none, hdeclaring, by simp⟩)
          | some type => exact hnamed type hdeclaring
      · rename_i hreached
        exact hunchanged (hcalm fun h => absurd h hreached)
    · rename_i hnone
      refine hunchanged fun _ _ _ _ target htarget => ?_
      rw [one?_kidFaces, hnone] at htarget
      cases htarget
  · rename_i hother
    rw [hreads.shape_eq, Term.face_node] at hother
    exact hunchanged fun name member type hshape => (hother name member type hshape).elim

theorem everywhere_settles (hsound : s.tree.Sound) : Settling (everywhere rule) s :=
  calmFirst_settles (fun _ _ _ _ _ _ _ hground hid hreads hnext =>
    rule_calms hground hid hreads hnext) (fun _ _ _ hcalm hdescend => rule_quiet hcalm hdescend)
    (fun _ => False.elim) hsound

end StaticMembers

end UnitySharp
