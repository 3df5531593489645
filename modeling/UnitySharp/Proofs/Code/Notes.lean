import Mathlib.Algebra.BigOperators.Group.List.Basic
import Mathlib.Algebra.GroupWithZero.Nat
import UnitySharp.Code.Printer
import UnitySharp.Proofs.Pass.Edits

/-!
# What printing leaves besides the text

The comments and records among the marks of a tree are those of the nodes that are visited
(`Printer.marksWithin_prints`).  A node passes its children on, each of them once; the declaration
of a loop, the body of a closure and a block around an `if` in an else branch are opened by their
holder, which passes on their children.
-/

namespace UnitySharp

open List

variable {wanted : Mark → Bool} {marks : List Mark} {t : Tree} {id : NodeId} {α : Type}

/-! ## Marks -/

def Mark.isNote : Mark → Bool
  | .comment _ | .unsupported _ => true
  | _ => false

def tally (wanted : Mark → Bool) (marks : List Mark) : Nat :=
  marks.countP fun mark => mark.isNote && wanted mark

@[simp] theorem tally_nil : tally wanted [] = 0 := rfl

@[simp] theorem tally_append (first second : List Mark) :
    tally wanted (first ++ second) = tally wanted first + tally wanted second :=
  countP_append

@[simp] theorem tally_cons (mark : Mark) (marks : List Mark) :
    tally wanted (mark :: marks) = (if mark.isNote && wanted mark then 1 else 0) +
      tally wanted marks := by
  simp only [tally, countP_cons]
  omega

@[simp] theorem isNote_text (s : String) : (Mark.text s).isNote = false := rfl
@[simp] theorem isNote_name (name : Name) : (Mark.name name).isNote = false := rfl
@[simp] theorem isNote_line : Mark.line.isNote = false := rfl
@[simp] theorem isNote_indent : Mark.indent.isNote = false := rfl
@[simp] theorem isNote_dedent : Mark.dedent.isNote = false := rfl

@[simp] theorem tally_say (s : String) : tally wanted (Printer.say s) = 0 := rfl

@[simp] theorem tally_braces (inner : List Mark) :
    tally wanted (Printer.braces inner) = tally wanted inner := by
  simp [Printer.braces]

/-- The level of indentation after marks, unless it would fall below zero. -/
def levelAfter : List Mark → Nat → Option Nat
  | [], level => some level
  | .indent :: rest, level => levelAfter rest (level + 1)
  | .dedent :: rest, level => if level = 0 then none else levelAfter rest (level - 1)
  | _ :: rest, level => levelAfter rest level

def Balanced (marks : List Mark) : Prop :=
  ∀ level, levelAfter marks level = some level

@[simp] theorem levelAfter_nil (level : Nat) : levelAfter [] level = some level := rfl
@[simp] theorem levelAfter_say (s : String) (level : Nat) :
    levelAfter (Printer.say s) level = some level := rfl

section

variable (marks : List Mark) (level : Nat)

@[simp] theorem levelAfter_text (s : String) :
    levelAfter (.text s :: marks) level = levelAfter marks level := rfl
@[simp] theorem levelAfter_name (name : Name) :
    levelAfter (.name name :: marks) level = levelAfter marks level := rfl
@[simp] theorem levelAfter_line : levelAfter (.line :: marks) level = levelAfter marks level := rfl
@[simp] theorem levelAfter_indent :
    levelAfter (.indent :: marks) level = levelAfter marks (level + 1) := rfl
@[simp] theorem levelAfter_dedent :
    levelAfter (.dedent :: marks) (level + 1) = levelAfter marks level := rfl
@[simp] theorem levelAfter_unsupported (record : Unsupported) :
    levelAfter (.unsupported record :: marks) level = levelAfter marks level := rfl

end

@[simp] theorem levelAfter_append (first second : List Mark) (level : Nat) :
    levelAfter (first ++ second) level = (levelAfter first level).bind (levelAfter second) := by
  induction first generalizing level with
  | nil => rfl
  | cons mark rest ih =>
    cases mark with
    | dedent =>
      simp only [cons_append, levelAfter]
      split
      · rfl
      · exact ih _
    | _ => exact ih _

@[simp] theorem Balanced.levelAfter_eq (h : Balanced marks) (level : Nat) :
    levelAfter marks level = some level :=
  h level

theorem Balanced.braces {inner : List Mark} (h : Balanced inner) :
    Balanced (Printer.braces inner) :=
  fun _ => by simp [Printer.braces, h]

theorem Balanced.comments (comments : List Comment) : Balanced (comments.map Mark.comment) := by
  intro level
  induction comments with
  | nil => rfl
  | cons c rest ih => exact ih

/-! ## Nodes passed on -/

/-- How a node is printed: as a whole, as the head of a loop, or as a body without its own braces
and comments. -/
inductive Form where
  | whole
  | head
  | bare
deriving DecidableEq

/-- A node on its way through the printer, inside an iterator or not. -/
structure Visit where
  form : Form
  iterator : Bool
  id : NodeId

/-- The form in which a node passes on the children of a role, if it does. -/
def Form.passing (form : Form) (kind : NodeKind) (iterator : Bool) (role : Role) : Option Form :=
  if form = .head then if role = .typeRef then some .whole else none
  else if kind = .unknown ∨ kind = .returnStatement ∧ iterator = true ∨ kind = .constructor ∧
    role = .returnType then none
  else if kind = .forEach ∧ role = .declaration then some .head
  else if kind = .closure ∧ role = .body then some .bare
  else some .whole

namespace Tree

variable {v u : Visit} {a : NodeId}

def iterates (t : Tree) (id : NodeId) : Bool :=
  match Printer.isIterator t (t.node id) with
  | .ok answer => answer
  | .error _ => false

def handsDown (t : Tree) (iterator : Bool) (id : NodeId) : Bool :=
  match t.kind id with
  | .method => t.iterates id
  | .constructor | .closure => false
  | _ => iterator

def passedIn (t : Tree) (v : Visit) (role : Role) : List Visit :=
  match v.form.passing (t.kind v.id) v.iterator role with
  | none => []
  | some form => ((t.node v.id).kidList role).map fun c => ⟨form, t.handsDown v.iterator v.id, c⟩

def passed (t : Tree) (v : Visit) : List Visit :=
  (t.kind v.id).layout.flatMap fun entry => t.passedIn v entry.1

def visitsWithin (t : Tree) : Nat → Visit → List Visit
  | 0, _ => []
  | depth + 1, v => v :: (t.passed v).flatMap (t.visitsWithin depth)

/-- The record of a construct that cannot be written. -/
def record? (t : Tree) (id : NodeId) : Option Unsupported :=
  match t.shape id with
  | .unknown kind text _ =>
    some
      { kind
        description := "Node type not supported yet: " ++
          if text.toJson.truthy then text.plain else NodeKind.unknown.word
        position := (t.node id).position }
  | .goto (.text s) | .label (.text s) =>
    if isIdentifier s then none
    else
      some
        { kind := (t.kind id).word
          description := "Label " ++ shownText s ++ " is not a legal identifier"
          position := (t.node id).position }
  | _ => none

def recordMarks (t : Tree) (id : NodeId) : List Mark :=
  ((t.record? id).map Mark.unsupported).toList

/-- The notes that a visited node leaves itself. -/
def ownNotes (t : Tree) (v : Visit) : List Mark :=
  (if v.form = .bare then [] else Printer.commentMarks (t.node v.id)) ++ t.recordMarks v.id

theorem subperm_kidsAt (kids : Kids α) {roles : List Role} (h : roles.Nodup) :
    (roles.flatMap fun role => (kidsAt role kids).toList).Subperm (allKids kids) := by
  induction kids generalizing roles with
  | nil => simp [kidsAt, Occupants.toList, flatMap_eq_nil_iff.mpr]
  | cons entry rest ih =>
    obtain ⟨held, occupants⟩ := entry
    rw [allKids_cons]
    -- Roles other than that of the first entry are looked for in the rest.
    have hrest : ∀ others : List Role, others.Nodup → held ∉ others →
        (others.flatMap fun role => (kidsAt role ((held, occupants) :: rest)).toList).Subperm
          (allKids rest) := by
      intro others hnodup hheld
      have hsame : ∀ role ∈ others,
          (kidsAt role ((held, occupants) :: rest)).toList = (kidsAt role rest).toList := by
        intro role hrole
        have hne : held ≠ role := fun heq => hheld (heq ▸ hrole)
        simp only [kidsAt, if_neg hne]
      rw [flatMap_congr hsame]
      exact ih hnodup
    by_cases hheld : held ∈ roles
    · have hself : kidsAt held ((held, occupants) :: rest) = occupants := by simp [kidsAt]
      refine ((perm_cons_erase hheld).flatMap_right _).subperm.trans ?_
      rw [flatMap_cons, hself]
      exact (List.Subperm.refl _).append (hrest _ (h.erase held) h.not_mem_erase)
    · exact (hrest roles h hheld).trans (sublist_append_right _ _).subperm

theorem passedIn_sublist (t : Tree) (v : Visit) (role : Role) :
    ((t.passedIn v role).map Visit.id).Sublist ((t.node v.id).kidList role) := by
  unfold passedIn
  split
  · exact nil_sublist _
  · simp [Function.comp_def]

theorem passed_subperm (t : Tree) (v : Visit) :
    ((t.passed v).map Visit.id).Subperm (t.children v.id) := by
  have hsub : ((t.passed v).map Visit.id).Sublist
      (((t.kind v.id).layout.map Prod.fst).flatMap fun role =>
        (kidsAt role (t.node v.id).kids).toList) := by
    unfold passed
    rw [map_flatMap, flatMap_map]
    induction (t.kind v.id).layout with
    | nil => exact List.Sublist.refl _
    | cons entry rest ih => exact (t.passedIn_sublist v entry.1).append ih
  exact hsub.subperm.trans (subperm_kidsAt _ (layout_nodup _))

theorem mem_children_of_passed (h : u ∈ t.passed v) : u.id ∈ t.children v.id :=
  (t.passed_subperm v).subset (mem_map_of_mem h)

theorem beneath_of_mem_visitsWithin {depth : Nat} (h : u ∈ t.visitsWithin depth v) :
    t.Beneath v.id u.id := by
  induction depth generalizing v with
  | zero => exact absurd h not_mem_nil
  | succ depth ih =>
    rw [visitsWithin, mem_cons, mem_flatMap] at h
    rcases h with rfl | ⟨w, hw, h⟩
    · exact Beneath.refl
    · exact (ih h).below_child (mem_children_of_passed hw)

theorem Intact.nodup_visitsWithin (h : t.Intact v.id) (depth : Nat) :
    ((t.visitsWithin depth v).map Visit.id).Nodup := by
  induction depth generalizing v with
  | zero => exact nodup_nil
  | succ depth ih =>
    obtain ⟨ids, hperm, hsub⟩ := t.passed_subperm v
    have hpassed : ((t.passed v).map Visit.id).Nodup := hperm.nodup_iff.mp (hsub.nodup h.nodup)
    rw [visitsWithin, map_cons, map_flatMap, nodup_cons, nodup_flatMap]
    refine ⟨fun hmem => ?_, fun u hu => ih (h.child (mem_children_of_passed hu)), ?_⟩
    · obtain ⟨u, hu, hmem⟩ := mem_flatMap.mp hmem
      obtain ⟨w, hw, heq⟩ := mem_map.mp hmem
      exact h.not_beneath_of_child (mem_children_of_passed hu)
        (heq ▸ beneath_of_mem_visitsWithin hw)
    · refine (pairwise_map.mp hpassed).imp_of_mem ?_
      intro u w hu hw hne a hau haw
      obtain ⟨x, hx, rfl⟩ := mem_map.mp hau
      obtain ⟨y, hy, heq⟩ := mem_map.mp haw
      exact h.siblings_apart (mem_children_of_passed hu) (mem_children_of_passed hw) hne
        (beneath_of_mem_visitsWithin hx) (heq ▸ beneath_of_mem_visitsWithin hy)

def tallyWithin (t : Tree) (wanted : Mark → Bool) (depth : Nat) (v : Visit) : Nat :=
  ((t.visitsWithin depth v).map fun u => tally wanted (t.ownNotes u)).sum

theorem tallyWithin_succ (t : Tree) (wanted : Mark → Bool) (depth : Nat) (v : Visit) :
    t.tallyWithin wanted (depth + 1) v =
      tally wanted (t.ownNotes v) + ((t.passed v).map (t.tallyWithin wanted depth)).sum := by
  unfold tallyWithin
  rw [visitsWithin, map_cons, sum_cons]
  congr 1
  induction t.passed v with
  | nil => rfl
  | cons u rest ih => simp [ih]

def share (t : Tree) (f : NodeId → Nat) (id : NodeId) (role : Role) : Nat :=
  (((t.node id).kidList role).map f).sum

theorem sum_passed (t : Tree) (count : Visit → Nat) (v : Visit) :
    ((t.passed v).map count).sum = ((t.kind v.id).layout.map fun entry =>
      match v.form.passing (t.kind v.id) v.iterator entry.1 with
      | none => 0
      | some form => t.share (fun c => count ⟨form, t.handsDown v.iterator v.id, c⟩) v.id
        entry.1).sum := by
  unfold passed
  induction (t.kind v.id).layout with
  | nil => rfl
  | cons entry rest ih =>
    rw [flatMap_cons, map_append, sum_append, ih, map_cons, sum_cons]
    congr 1
    unfold passedIn
    split
    · rfl
    · simp [share, Function.comp_def]

end Tree

/-! ## Printing -/

namespace Printer

variable {emit : Emit} {emitIn : Bool → Emit} {count inner : Visit → Nat} {printed : Printed}
  {n : Nat} {type : Option Ty}

def Prints (wanted : Mark → Bool) (printed : Printed) (n : Nat) : Prop :=
  ∀ marks, printed = .ok marks → Balanced marks ∧ tally wanted marks = n

namespace Prints

variable {f : NodeId → Nat}

theorem ok (hbalanced : Balanced marks) (htally : tally wanted marks = n) :
    Prints wanted (.ok marks) n := by
  intro other hother
  cases hother
  exact ⟨hbalanced, htally⟩

theorem error {fault : Fault} : Prints wanted (.error fault) n :=
  fun _ h => nomatch h

theorem bind {total : Nat} {next : List Mark → Printed} (h : Prints wanted printed n)
    (hnext : ∀ marks, Balanced marks → tally wanted marks = n → Prints wanted (next marks) total) :
    Prints wanted (printed >>= next) total := by
  intro marks hmarks
  obtain ⟨first, hfirst, hmarks⟩ := Except.bind_eq_ok hmarks
  obtain ⟨hbalanced, htally⟩ := h first hfirst
  exact hnext first hbalanced htally marks hmarks

theorem ask {answer : Except Fault α} {next : α → Printed}
    (hnext : ∀ result, answer = .ok result → Prints wanted (next result) n) :
      Prints wanted (answer >>= next) n := by
  intro marks hmarks
  obtain ⟨result, hresult, hmarks⟩ := Except.bind_eq_ok hmarks
  exact hnext result hresult marks hmarks

theorem give {value : α} {next : α → Printed} (h : Prints wanted (next value) n) :
    Prints wanted ((Except.ok value : Except Fault α) >>= next) n :=
  h

theorem along {σ : Type} (run : σ → List NodeId → Printed)
    (hnil : ∀ state, Prints wanted (run state []) 0)
    (hcons : ∀ state id rest m n, (∀ next, Prints wanted (run next rest) n) →
      Prints wanted (emit id) m → Prints wanted (run state (id :: rest)) (m + n))
    (h : ∀ id, Prints wanted (emit id) (f id)) (ids : List NodeId) (state : σ) :
    Prints wanted (run state ids) (ids.map f).sum := by
  induction ids generalizing state with
  | nil => exact hnil state
  | cons id rest ih => exact hcons state id rest _ _ ih (h id)

section

variable (h : ∀ id, Prints wanted (emit id) (f id)) (t : Tree) (id : NodeId) (role : Role)

include h

theorem child : Prints wanted (Printer.child emit ((t.node id).kid role)) (t.share f id role) := by
  unfold Tree.share Node.kidList
  cases (t.node id).kid role with
  | one c => simpa [Printer.child, Occupants.toList] using h c
  | _ => exact .error

theorem operand (isLoose : Nat → Bool) :
    Prints wanted (Printer.operand t emit ((t.node id).kid role) isLoose) (t.share f id role) := by
  refine .ask fun strength _ => (child h t id role).bind fun marks hb ht => ?_
  split
  · exact .ok (fun _ => by simp [hb]) (by simp [ht])
  · exact .ok hb ht

theorem body : Prints wanted (Printer.body t emit ((t.node id).kid role)) (t.share f id role) := by
  unfold Tree.share Node.kidList
  cases (t.node id).kid role with
  | one c =>
    refine (h c).bind fun marks hb ht => ?_
    split
    · exact .ok hb (by simp [ht, Occupants.toList])
    · exact .ok (fun _ => by simp [hb]) (by simp [ht, Occupants.toList])
  | _ => exact .error

theorem sequence :
    Prints wanted (Printer.sequence emit ((t.node id).kidList role)) (t.share f id role) := by
  refine along (fun _ : Unit => Printer.sequence emit) (fun _ => .ok (fun _ => rfl) rfl) ?_ h _ ()
  intro _ id rest m n hrest hid
  exact hid.bind fun marks hb ht => (hrest ()).bind fun later hb' ht' =>
    .ok (fun _ => by simp [*]) (by simp [*])

theorem attributes :
    Prints wanted (Printer.attributes emit ((t.node id).kidList role)) (t.share f id role) := by
  refine along (fun _ : Unit => Printer.attributes emit) (fun _ => .ok (fun _ => rfl) rfl) ?_ h _ ()
  intro _ id rest m n hrest hid
  exact hid.bind fun marks hb ht => (hrest ()).bind fun later hb' ht' =>
    .ok (fun _ => by simp [*]) (by simp [*])

theorem caseLabels :
    Prints wanted (Printer.caseLabels emit ((t.node id).kidList role)) (t.share f id role) := by
  refine along (fun _ : Unit => Printer.caseLabels emit) (fun _ => .ok (fun _ => rfl) rfl) ?_ h _ ()
  intro _ id rest m n hrest hid
  exact hid.bind fun marks hb ht => (hrest ()).bind fun later hb' ht' =>
    .ok (fun _ => by simp [*]) (by simp [*])

theorem moduleMembers (separated : Bool) :
    Prints wanted (Printer.moduleMembers emit separated ((t.node id).kidList role))
    (t.share f id role) := by
  refine along (Printer.moduleMembers emit) (fun _ => .ok (fun _ => rfl) rfl) ?_ h _ separated
  intro separated id rest m n hrest hid
  refine hid.bind fun marks hb ht => (hrest true).bind fun later hb' ht' => ?_
  cases separated <;> exact .ok (fun _ => by simp [*]) (by simp [*])

theorem typeMembers (isFirst : Bool) :
    Prints wanted (Printer.typeMembers t emit isFirst ((t.node id).kidList role))
    (t.share f id role) := by
  refine along (Printer.typeMembers t emit) (fun _ => .ok (fun _ => rfl) rfl) ?_ h _ isFirst
  intro isFirst id rest m n hrest hid
  refine hid.bind fun marks hb ht => (hrest false).bind fun later hb' ht' => ?_
  split <;> exact .ok (fun _ => by simp [*]) (by simp [*])

theorem commaSeparated :
    Prints wanted (Printer.commaSeparated emit ((t.node id).kidList role)) (t.share f id role) := by
  refine along (fun _ : Unit => Printer.commaSeparated emit) (fun _ => .ok (fun _ => rfl) rfl) ?_ h
    _ ()
  intro _ id rest m n hrest hid
  cases rest with
  | nil =>
    obtain ⟨-, rfl⟩ := hrest () [] rfl
    exact hid
  | cons other rest =>
    exact hid.bind fun marks hb ht => (hrest ()).bind fun later hb' ht' =>
      .ok (fun _ => by simp [*]) (by simp [*])

theorem enumMembers :
    Prints wanted (Printer.enumMembers emit ((t.node id).kidList role)) (t.share f id role) := by
  refine along (fun _ : Unit => Printer.enumMembers emit) (fun _ => .ok (fun _ => rfl) rfl) ?_ h _
    ()
  intro _ id rest m n hrest hid
  cases rest with
  | nil =>
    obtain ⟨-, rfl⟩ := hrest () [] rfl
    exact hid.bind fun marks hb ht => .ok (fun _ => by simp [*]) (by simp [*])
  | cons other rest =>
    exact hid.bind fun marks hb ht => (hrest ()).bind fun later hb' ht' =>
      .ok (fun _ => by simp [*]) (by simp [*])

theorem initializer :
    Prints wanted (Printer.initializer emit (t.node id)) (t.share f id .initializer) := by
  have hchild := child h t id .initializer
  unfold Printer.initializer
  split
  · rename_i hkid
    exact .ok (fun _ => rfl) (by simp [Tree.share, Node.kidList, hkid, Occupants.toList])
  · exact hchild.bind fun marks hb ht => .ok (fun _ => by simp [hb]) (by simp [ht])

theorem declarator :
    Prints wanted (Printer.declarator emit (t.node id)) (t.share f id .typeRef) := by
  have hchild := child h t id .typeRef
  unfold Printer.declarator
  extract_lets named
  have hnamed : ∀ marks n, Balanced marks → tally wanted marks = n →
    Prints wanted (named marks) n := by
    intro marks n hb ht
    simp only [named]
    split
    · exact .ask fun s _ => .ok (fun _ => by simp [hb]) (by simp [ht])
    · exact .ask fun s _ => .ok (fun _ => by simp [hb]) (by simp [ht])
    · exact .ask fun s _ => .ok (fun _ => by simp [hb]) (by simp [ht])
    · exact .error
  split
  · rename_i hkid
    have hnone : t.share f id .typeRef = 0 := by
      simp [Tree.share, Node.kidList, hkid, Occupants.toList]
    split
    · exact hnamed _ _ (fun _ => by simp) (by simp [hnone])
    · exact hnamed _ _ (fun _ => by simp) (by simp [hnone])
    · exact .error
  · exact hchild.bind fun marks hb ht => hnamed _ _ hb ht

end

theorem modifiers (names : List Name) : Prints wanted (Printer.modifiers names) 0 := by
  induction names with
  | nil => exact .ok (fun _ => rfl) rfl
  | cons name rest ih =>
    exact .ask fun s _ => ih.bind fun later hb ht => .ok (fun _ => by simp [hb]) (by simp [ht])

end Prints

theorem imports_plain (names : List Name) :
    Balanced (names.flatMap fun name => say ("using " ++ name.plain ++ ";") ++ [.line]) ∧
      tally wanted (names.flatMap fun name => say ("using " ++ name.plain ++ ";") ++ [.line]) =
        0 := by
  induction names with
  | nil => exact ⟨fun _ => rfl, rfl⟩
  | cons name rest ih => exact ⟨fun _ => by simp [ih.1], by simp [ih.2]⟩

theorem unknownNode_prints (t : Tree) {kind text : Name}
    (hshape : (t.node id).shape = .unknown kind text type) :
    Prints wanted (unknownNode t id kind text) (tally wanted (t.recordMarks id)) := by
  unfold unknownNode
  extract_lets endsLine rest
  have hrest : ∀ description,
      description = (if text.toJson.truthy then text.plain else NodeKind.unknown.word) →
      Prints wanted (rest description) (tally wanted (t.recordMarks id)) := by
    rintro _ rfl
    simp only [Tree.recordMarks, Tree.record?, Tree.shape, hshape]
    cases hends : endsLine <;> exact .ok (fun _ => by simp [hends]) (by simp [hends])
  split
  · rename_i htruthy
    refine .ask fun description hdescription => hrest description ?_
    cases text with
    | text s =>
      cases hdescription
      rw [if_pos htruthy]
      rfl
    | other value => cases hdescription
  · rename_i htruthy
    exact hrest _ (by simp [htruthy])

theorem jumpTarget_prints (t : Tree) {name : Name} {legal : String → List Mark}
    (hshape : (t.node id).shape = .goto name ∨ (t.node id).shape = .label name)
    (hlegal : ∀ s, Balanced (legal s) ∧ tally wanted (legal s) = 0) :
    Prints wanted (jumpTarget (t.node id) name legal) (tally wanted (t.recordMarks id)) := by
  refine .ask fun s hs => ?_
  cases name with
  | other value => cases hs
  | text s =>
    cases hs
    rcases hshape with hshape | hshape
    all_goals
      simp only [Tree.recordMarks, Tree.record?, Tree.shape, Tree.kind, hshape]
      split
      · exact .ok (hlegal s).1 (by simp [hlegal s])
      · exact .ok (fun _ => by simp) (by simp)

theorem referenceMarks_prints (t : Tree) (name : Name) (symbol : Option Symbol) :
    Prints wanted (referenceMarks t name symbol) 0 := by
  unfold referenceMarks
  split
  · exact .ask fun key _ => .ok (fun _ => by simp) (by simp)
  · exact .ok (fun _ => by simp) (by simp)

theorem elseIf?_some {branch only : NodeId} (h : elseIf? t branch = some only) :
    (t.node branch).kidList .statements = [only] ∧ (t.node branch).comments = [] ∧
      (t.node branch).shape.kind = .block ∧ t.kind only = .ifStatement := by
  simp only [elseIf?] at h
  split at h
  · rename_i hkind hstatements
    split at h
    · rename_i hplain
      rw [Bool.and_eq_true, beq_iff_eq, List.isEmpty_iff] at hplain
      cases h
      exact ⟨hstatements, hplain.2, hkind, hplain.1⟩
    · cases h
  · cases h

/-! ### Nodes -/

/-- What visits come to.  Printing a child gives what its visit comes to, and so does opening it,
with what its own children come to further in. -/
structure Counts (t : Tree) (wanted : Mark → Bool) (emitIn : Bool → Emit)
    (count inner : Visit → Nat) : Prop where
  emits : ∀ iterator id, Prints wanted (emitIn iterator id) (count ⟨.whole, iterator, id⟩)
  emitsInner : ∀ iterator id, Prints wanted (emitIn iterator id) (inner ⟨.whole, iterator, id⟩)
  opens : ∀ v, count v = tally wanted (t.ownNotes v) + ((t.passed v).map inner).sum

namespace Counts

variable (h : Counts t wanted emitIn count inner) {iterator : Bool}

include h

theorem elseBranch (iterator : Bool) (id : NodeId) :
    Prints wanted (Printer.elseBranch t (emitIn iterator) ((t.node id).kid .elseBranch))
      (t.share (fun c => count ⟨.whole, iterator, c⟩) id .elseBranch) := by
  have hbody := Prints.body (h.emits iterator) t id .elseBranch
  unfold Tree.share Node.kidList Printer.elseBranch
  cases hkid : (t.node id).kid .elseBranch with
  | empty => exact .ok (fun _ => rfl) rfl
  | many ids => exact .error
  | one branch =>
    simp only
    split
    · rename_i only honly
      obtain ⟨hstatements, hcomments, hkind, _⟩ := elseIf?_some honly
      have hopens := h.opens ⟨.whole, iterator, branch⟩
      have hown : tally wanted (t.ownNotes ⟨.whole, iterator, branch⟩) = 0 := by
        cases hshape : (t.node branch).shape <;> simp_all [Shape.kind]
        simp [Tree.ownNotes, Tree.recordMarks, Tree.record?, Tree.shape, commentMarks, hshape,
          hcomments]
      rw [hown, Tree.sum_passed] at hopens
      simp only [Tree.kind, Tree.shape, hkind, NodeKind.layout, Form.passing, Tree.handsDown,
        Tree.share] at hopens
      refine (h.emitsInner iterator only).bind fun marks hb ht => .ok (fun _ => by simp [hb]) ?_
      simpa [Occupants.toList, hopens, hstatements] using ht
    · rw [Tree.share, Node.kidList, hkid] at hbody
      exact hbody.bind fun marks hb ht => .ok (fun _ => by simp [hb]) (by simpa using ht)

theorem signature (iterator : Bool) (head : MethodHead) (name : Name) (returns : Bool) :
    Prints wanted (Printer.signature (emitIn iterator) (t.node id) head name returns)
      (t.share (fun c => count ⟨.whole, iterator, c⟩) id .attributes +
        (if returns then t.share (fun c => count ⟨.whole, iterator, c⟩) id .returnType else 0) +
        t.share (fun c => count ⟨.whole, iterator, c⟩) id .parameters) := by
  have hreturn := Prints.child (h.emits iterator) t id .returnType
  unfold Printer.signature
  refine (Prints.attributes (h.emits iterator) t id _).bind fun attributeMarks hb₁ ht₁ => ?_
  refine (Prints.modifiers _).bind fun modifierMarks hb₂ ht₂ => ?_
  extract_lets rest
  have hrest : ∀ marks n, Balanced marks → tally wanted marks = n → Prints wanted (rest marks)
      (t.share (fun c => count ⟨.whole, iterator, c⟩) id .attributes + n +
        t.share (fun c => count ⟨.whole, iterator, c⟩) id .parameters) := by
    intro marks n hb₃ ht₃
    refine .ask fun s _ => (Prints.commaSeparated (h.emits iterator) t id _).bind
      fun parameterMarks hb₄ ht₄ => ?_
    exact .ok (fun _ => by simp [*]) (by simp [*, Nat.add_assoc])
  cases returns with
  | false => exact hrest _ _ (fun _ => rfl) rfl
  | true =>
    simp only [Bool.not_true, Bool.false_eq_true, if_false, if_true]
    split
    · rename_i hkid
      refine hrest _ _ (fun _ => by simp) ?_
      simp [Tree.share, Node.kidList, hkid, Occupants.toList]
    · exact hreturn.bind fun marks hb ht => hrest _ _ (fun _ => by simp [hb]) (by simp [ht])

theorem forEach (hshape : (t.node id).shape = .forEach) :
    Prints wanted (Printer.nodeMarks t emitIn iterator id)
      (t.share (fun c => count ⟨.head, iterator, c⟩) id .declaration +
        (t.share (fun c => count ⟨.whole, iterator, c⟩) id .iterator +
          t.share (fun c => count ⟨.whole, iterator, c⟩) id .body)) := by
  have hiterated := Prints.child (h.emits iterator) t id .iterator
  have hbody := Prints.body (h.emits iterator) t id .body
  simp only [Printer.nodeMarks, hshape]
  split
  · rename_i declaration hkid
    -- The declaration is opened: its comments come with its type and name.
    have hdeclarator := Prints.declarator (h.emitsInner iterator) t declaration
    have hopened : ∀ marks, Printer.declarator (emitIn iterator) (t.node declaration) = .ok marks →
        count ⟨.head, iterator, declaration⟩ =
          tally wanted ((t.node declaration).comments.map Mark.comment) +
          t.share (fun c => inner ⟨.whole, iterator, c⟩) declaration .typeRef := by
      intro marks hmarks
      rw [h.opens, Tree.sum_passed]
      cases hshape : (t.node declaration).shape
      case declaration | field | parameter =>
        simp [Tree.ownNotes, Tree.recordMarks, Tree.record?, commentMarks, Tree.kind, Tree.shape,
          hshape, Shape.kind, NodeKind.layout, Form.passing, Tree.handsDown]
      all_goals
        simp only [Printer.declarator, hshape] at hmarks
        split at hmarks
        · cases hmarks
        · obtain ⟨_, _, hmarks⟩ := Except.bind_eq_ok hmarks
          cases hmarks
    refine .ask fun marks hmarks => .give ?_
    obtain ⟨hb, ht⟩ := hdeclarator marks hmarks
    have hcomments := Balanced.comments (t.node declaration).comments
    refine hiterated.bind fun iterated hb' ht' => hbody.bind fun bodyMarks hb'' ht'' => ?_
    refine .ok (fun _ => by simp [*]) ?_
    simp [ht, ht', ht'', Tree.share, Node.kidList, hkid, Occupants.toList, hopened marks hmarks]
    omega
  · exact .error

theorem closure (hshape : (t.node id).shape = .closure type) :
    Prints wanted (Printer.nodeMarks t emitIn iterator id)
      (t.share (fun c => count ⟨.whole, false, c⟩) id .parameters +
        t.share (fun c => count ⟨.bare, false, c⟩) id .body) := by
  simp only [Printer.nodeMarks, hshape]
  refine (Prints.commaSeparated (h.emits false) t id .parameters).bind fun parameters hb ht => ?_
  split
  · rename_i block hkid
    split
    · -- The body is opened: its comments are not written, its statements are.
      rename_i hblock
      have hopens := h.opens ⟨.bare, false, block⟩
      rw [Tree.sum_passed] at hopens
      have hown : t.ownNotes ⟨.bare, false, block⟩ = [] := by
        have hkind : (t.shape block).kind = .block := eq_of_beq hblock
        cases hshape : t.shape block <;> simp_all [Shape.kind, Tree.ownNotes, Tree.recordMarks,
          Tree.record?]
      simp only [eq_of_beq hblock, hown, tally_nil, NodeKind.layout, Form.passing, Tree.handsDown,
        reduceCtorEq, false_and, or_false, if_false, map_cons, map_nil, sum_cons, sum_nil,
        Nat.add_zero, Nat.zero_add] at hopens
      refine (Prints.sequence (h.emitsInner false) t block .statements).bind fun inner hb' ht' => ?_
      refine .ok (fun _ => by simp [hb, hb'.braces]) ?_
      have hshare : t.share (fun c => count ⟨.bare, false, c⟩) id .body = count ⟨.bare, false,
        block⟩ := by
        simp [Tree.share, Node.kidList, hkid, Occupants.toList]
      simp [ht, ht', hshare, hopens]
    · exact .error
  · exact .error

theorem nodeMarks (iterator : Bool) (id : NodeId) :
    Prints wanted (Printer.nodeMarks t emitIn iterator id)
      (tally wanted (t.recordMarks id) + ((t.passed ⟨.whole, iterator, id⟩).map count).sum) := by
  have hin := h.emits iterator
  have hsum := t.sum_passed count ⟨.whole, iterator, id⟩
  cases hshape : (t.node id).shape
  case returnStatement =>
    cases iterator
    all_goals
      simp only [Tree.kind, Tree.shape, hshape, Shape.kind, NodeKind.layout, Form.passing,
        Tree.handsDown, map_cons, map_nil, sum_cons, sum_nil, reduceCtorEq, false_and, true_and,
        or_false, false_or, if_false, if_true, Nat.add_zero, Bool.false_eq_true] at hsum
      simp only [Printer.nodeMarks, hshape, Bool.false_eq_true, if_false, if_true, hsum,
        Tree.recordMarks, Tree.record?, Tree.shape]
    case true => exact .ok (fun _ => by simp) (by simp)
    case false =>
      have hchild := Prints.child hin t id .expression
      split
      · rename_i hkid
        exact .ok (fun _ => by simp) (by simp [Tree.share, Node.kidList, hkid, Occupants.toList])
      · exact hchild.bind fun marks hb ht => .ok (fun _ => by simp [hb]) (by simp [ht])
  all_goals
    simp only [Tree.kind, Tree.shape, hshape, Shape.kind, NodeKind.layout, Form.passing,
      Tree.handsDown, map_cons, map_nil, sum_cons, sum_nil, reduceCtorEq, false_and, true_and,
      or_false, false_or, if_false, if_true, Nat.add_zero] at hsum
    rw [hsum]
  case unknown kind text type =>
    simp only [Printer.nodeMarks, hshape]
    exact unknownNode_prints t hshape
  case goto label =>
    simp only [Printer.nodeMarks, hshape]
    exact jumpTarget_prints t (.inl hshape) fun s => ⟨fun _ => by simp, by simp⟩
  case label name =>
    simp only [Printer.nodeMarks, hshape]
    exact jumpTarget_prints t (.inr hshape) fun s => ⟨fun _ => by simp, by simp⟩
  all_goals
    rw [show t.recordMarks id = [] by simp [Tree.recordMarks, Tree.record?, Tree.shape, hshape],
      tally_nil, Nat.zero_add]
  case forEach => exact h.forEach hshape
  case closure type => exact h.closure hshape
  all_goals simp only [Printer.nodeMarks, hshape]
  case module path imports close =>
    have himports := @imports_plain wanted imports
    exact (Prints.moduleMembers hin t id _ _).bind fun marks hb ht =>
      .ok (fun _ => by
          simp only [levelAfter_append, himports.1.levelAfter_eq, hb.levelAfter_eq,
            Option.bind_some])
        (by simp only [tally_append, himports.2, ht, Nat.zero_add])
  case «attribute» name =>
    refine .ask fun s _ => ?_
    split
    · rename_i hempty
      exact .ok (fun _ => by simp) (by simp [Tree.share, List.isEmpty_iff.mp hempty])
    · exact (Prints.commaSeparated hin t id _).bind fun marks hb ht =>
        .ok (fun _ => by simp [*]) (by simp [*])
  case typeDef name kind modifierNames type close =>
    refine (Prints.attributes hin t id _).bind fun attributeMarks hb₁ ht₁ => ?_
    refine (Prints.modifiers _).bind fun modifierMarks hb₂ ht₂ => ?_
    split
    · rename_i hempty
      have hbases : t.share (fun c => count ⟨.whole, iterator, c⟩) id .bases = 0 := by
        simp [Tree.share, List.isEmpty_iff.mp hempty]
      refine .give ?_
      split
      · exact (Prints.enumMembers hin t id _).bind fun members hb₃ ht₃ =>
          .ok (fun _ => by simp [*, hb₃.braces]) (by simp [*])
      · exact (Prints.typeMembers hin t id _ _).bind fun members hb₃ ht₃ =>
          .ok (fun _ => by simp [*, hb₃.braces]) (by simp [*])
    · refine (Prints.commaSeparated hin t id _).bind fun bases hb₃ ht₃ => .give ?_
      split
      · exact (Prints.enumMembers hin t id _).bind fun members hb₄ ht₄ =>
          .ok (fun _ => by simp [*, hb₄.braces]) (by simp [*])
      · exact (Prints.typeMembers hin t id _ _).bind fun members hb₄ ht₄ =>
          .ok (fun _ => by simp [*, hb₄.braces]) (by simp [*])
  case enumMember name =>
    exact (Prints.initializer hin t id).bind fun marks hb ht =>
      .ok (fun _ => by simp [*]) (by simp [*])
  case field name modifierNames symbol =>
    refine (Prints.attributes hin t id _).bind fun attributeMarks hb₁ ht₁ => ?_
    refine (Prints.modifiers _).bind fun modifierMarks hb₂ ht₂ => ?_
    refine (Prints.child hin t id _).bind fun typeMarks hb₃ ht₃ => .ask fun s _ => ?_
    refine (Prints.initializer hin t id).bind fun initial hb₄ ht₄ => ?_
    exact .ok (fun _ => by simp [*]) (by simp [*])
  case parameter name byRef symbol =>
    have hchild := Prints.child hin t id .typeRef
    have hrest : ∀ marks n, Balanced marks → tally wanted marks = n → Prints wanted (do
        let s ← textOf name
        .ok ((if byRef.truthy then say "ref " else []) ++ marks ++ say (" " ++ s))) n := by
      intro marks n hb ht
      refine .ask fun s _ => ?_
      split <;> exact .ok (fun _ => by simp [*]) (by simp [*])
    split
    · rename_i hkid
      exact hrest _ _ (fun _ => by simp)
        (by simp [Tree.share, Node.kidList, hkid, Occupants.toList])
    · exact hchild.bind fun marks hb ht => hrest _ _ hb ht
  case method head =>
    refine .ask fun iterates hiterates => ?_
    rw [show t.iterates id = iterates by simp [Tree.iterates, hiterates]]
    refine (h.signature iterates head _ true).bind fun signatureMarks hb₁ ht₁ => ?_
    refine (Prints.child (h.emits iterates) t id _).bind fun bodyMarks hb₂ ht₂ =>
      .ok (fun _ => by simp [*]) ?_
    simp [*]
    omega
  case constructor head =>
    refine (h.signature false head _ false).bind fun signatureMarks hb₁ ht₁ => ?_
    refine (Prints.child (h.emits false) t id _).bind fun bodyMarks hb₂ ht₂ =>
      .ok (fun _ => by simp [*]) ?_
    simp [*]
    omega
  case block =>
    exact (Prints.sequence hin t id _).bind fun marks hb ht =>
      .ok (fun _ => by simp [hb.braces]) (by simp [*])
  case switchStatement =>
    refine (Prints.child hin t id _).bind fun subject hb₁ ht₁ => ?_
    refine (Prints.sequence hin t id _).bind fun sections hb₂ ht₂ => ?_
    exact .ok (fun _ => by simp [*, hb₂.braces]) (by simp [*])
  case switchSection =>
    refine (Prints.caseLabels hin t id _).bind fun labelMarks hb₁ ht₁ => ?_
    refine (Prints.sequence hin t id _).bind fun inner hb₂ ht₂ => ?_
    split <;> exact .ok (fun _ => by simp [*]) (by simp [*])
  case declaration name symbol =>
    refine (Prints.declarator hin t id).bind fun marks hb₁ ht₁ => ?_
    refine (Prints.initializer hin t id).bind fun initial hb₂ ht₂ =>
      .ok (fun _ => by simp [*]) (by simp [*])
  case ifStatement =>
    refine (Prints.child hin t id _).bind fun condition hb₁ ht₁ => ?_
    refine (Prints.body hin t id _).bind fun thenMarks hb₂ ht₂ => ?_
    refine (h.elseBranch iterator id).bind fun elseMarks hb₃ ht₃ =>
      .ok (fun _ => by simp [*]) (by simp [*])
  case whileLoop =>
    refine (Prints.child hin t id _).bind fun condition hb₁ ht₁ => ?_
    refine (Prints.body hin t id _).bind fun bodyMarks hb₂ ht₂ =>
      .ok (fun _ => by simp [*]) (by simp [*])
  case yieldStatement =>
    have hchild := Prints.child hin t id .expression
    split
    · rename_i hkid
      refine .give
        (.ok (fun _ => by simp) (by simp [Tree.share, Node.kidList, hkid, Occupants.toList]))
    · exact hchild.bind fun marks hb ht => .ok (fun _ => by simp [*]) (by simp [*])
  case binary op type =>
    refine .ask fun mine _ => ?_
    split
    · refine (Prints.child hin t id _).bind fun left hb₁ ht₁ => ?_
      refine (Prints.operand hin t id _ _).bind fun right hb₂ ht₂ =>
        .ok (fun _ => by simp [*]) (by simp [*])
    · refine (Prints.operand hin t id _ _).bind fun left hb₁ ht₁ => .ask fun token _ => ?_
      refine (Prints.operand hin t id _ _).bind fun right hb₂ ht₂ =>
        .ok (fun _ => by simp [*]) (by simp [*])
  case unary op postfixed type =>
    refine .ask fun token _ => ?_
    split <;> exact (Prints.operand hin t id _ _).bind fun marks hb ht =>
      .ok (fun _ => by simp [*]) (by simp [*])
  case invocation type =>
    refine (Prints.operand hin t id _ _).bind fun target hb₁ ht₁ => ?_
    refine (Prints.commaSeparated hin t id _).bind fun arguments hb₂ ht₂ => ?_
    split <;> exact .ok (fun _ => by simp [*]) (by simp [*])
  case reference name symbol type => exact referenceMarks_prints t name symbol
  case literal value type =>
    split
    · exact .ok (fun _ => by simp) (by simp)
    · exact .error
  case memberAccess name symbol type =>
    exact (Prints.operand hin t id _ _).bind fun target hb ht => .ask fun s _ =>
      .ok (fun _ => by simp [*]) (by simp [*])
  case cast type =>
    refine (Prints.child hin t id _).bind fun typeMarks hb₁ ht₁ => ?_
    refine (Prints.operand hin t id _ _).bind fun marks hb₂ ht₂ =>
      .ok (fun _ => by simp [*]) (by simp [*])
  case tryCast type =>
    refine (Prints.operand hin t id _ _).bind fun marks hb₁ ht₁ => ?_
    refine (Prints.child hin t id _).bind fun typeMarks hb₂ ht₂ =>
      .ok (fun _ => by simp [*]) (by simp [*])
  case indexer type =>
    refine (Prints.operand hin t id _ _).bind fun target hb₁ ht₁ => ?_
    refine (Prints.commaSeparated hin t id _).bind fun indices hb₂ ht₂ =>
      .ok (fun _ => by simp [*]) (by simp [*])
  case conditional type =>
    refine (Prints.operand hin t id _ _).bind fun condition hb₁ ht₁ => ?_
    refine (Prints.operand hin t id _ _).bind fun yes hb₂ ht₂ => ?_
    refine (Prints.operand hin t id _ _).bind fun no hb₃ ht₃ =>
      .ok (fun _ => by simp [*]) (by simp [*])
  case genericRef type =>
    refine (Prints.child hin t id _).bind fun target hb₁ ht₁ => ?_
    refine (Prints.commaSeparated hin t id _).bind fun arguments hb₂ ht₂ =>
      .ok (fun _ => by simp [*]) (by simp [*])
  case expressionStatement | typeOf =>
    exact (Prints.child hin t id _).bind fun marks hb ht => .ok (fun _ => by simp [*]) (by simp [*])
  case typeRef | breakStatement | continueStatement | selfRef | superRef =>
    exact .ok (fun _ => by simp) (by simp)

end Counts

end Printer

/-- The marks of a node keep the level, and the notes among them are those of the nodes visited
beneath it.  Where a node is opened by its holder, its children are printed one level higher up, so
the visits go down to twice the depth. -/
theorem Printer.marksWithin_prints (t : Tree) (wanted : Mark → Bool) (depth : Nat) (iterator : Bool)
    (id : NodeId) {bound : Nat} (hbound : 2 * depth ≤ bound) :
    Prints wanted (marksWithin t depth iterator id)
    (t.tallyWithin wanted bound ⟨.whole, iterator, id⟩) := by
  induction depth generalizing iterator id bound with
  | zero => exact .error
  | succ depth ih =>
    obtain ⟨bound, rfl⟩ : ∃ less, bound = less + 2 := ⟨bound - 2, by omega⟩
    have hcounts : Counts t wanted (fun inside child => marksWithin t depth inside child)
        (t.tallyWithin wanted (bound + 1)) (t.tallyWithin wanted bound) :=
      { emits := fun iterator id => ih iterator id (by omega)
        emitsInner := fun iterator id => ih iterator id (by omega)
        opens := t.tallyWithin_succ wanted bound }
    refine (hcounts.nodeMarks iterator id).bind fun marks hb ht => ?_
    have hcomments : Balanced (commentMarks (t.node id)) := by
      unfold commentMarks
      split
      · exact fun _ => rfl
      · exact Balanced.comments _
    refine .ok (fun _ => by simp [hb, hcomments]) ?_
    rw [tally_append, ht, Tree.tallyWithin_succ, Tree.ownNotes, if_neg (by simp), tally_append,
      Nat.add_assoc]

end UnitySharp
