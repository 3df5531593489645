import UnitySharp.Pass.Basic
import UnitySharp.Switch.Lowered

/-!
# Rebuilding switches

Cases whose labels are all constants get a section each; the others move to the front of the default
section as the `if` statements they are, with the subject in the place of the temporary.  A subject
that may not be evaluated twice is then kept in a local variable.
-/

namespace UnitySharp

namespace Json

def negated? : Json → Option Json
  | .double x => some (.double x.negated)
  | value => value.integer?.map fun i => .int (-i)

end Json

namespace Switch

/-- The integer that a label stands for, with or without a sign before it. -/
def integerLabel? (label : NodeId) : Pass (Option Json) := do
  let t ← Pass.tree
  match t.shape label with
  | .literal value type =>
    match type with
    | some type => return if type.isIntegral && !value.isNull then some value else none
    | none => throw .unfit
  | .unary op _ _ =>
    match op.is "-", (t.only? label .operand).map t.shape with
    | true, some (.literal value type) =>
      match type with
      | some type =>
        if type.isIntegral then
          match value.negated? with
          | some negated => return some negated
          | none => throw .mistyped
        else return none
      | none => throw .unfit
    | _, _ => return none
  | _ => return none

/-- A label over a subject of some type.  An integer over an enumeration names the member of that
value, or failing that is cast. -/
def labelOver (type : Option Ty) (label : NodeId) : Pass Draft := do
  match type.filter Ty.isEnum with
  | none => return .kept label
  | some type =>
    match ← integerLabel? label with
    | none => return .kept label
    | some value =>
      match type.memberOf? value with
      | some member => return .enumMember type member ((← Pass.tree).position label)
      | none => return .cast type (.kept label)

/-- The statements of a body without a `break` that directly follows another jump at its end,
looking at most `fuel` times; with those that were left out. -/
def withoutSpareBreaks (t : Tree) : Nat → List NodeId → List NodeId × List NodeId
  | 0, statements => (statements, [])
  | fuel + 1, statements =>
    match statements.reverse with
    | last :: before :: _ =>
      if t.kind last = .breakStatement ∧ (t.kind before).isJump = true then
        let (kept, dropped) := withoutSpareBreaks t fuel statements.dropLast
        (kept, last :: dropped)
      else (statements, [])
    | _ => (statements, [])

/-- The statements of a body without spare breaks, which are cut out, and whether control can run
out of it. -/
def trimBody (statements : List NodeId) : Pass (List NodeId × Bool) := do
  let t ← Pass.tree
  let (kept, dropped) := withoutSpareBreaks t statements.length statements
  Pass.change fun t => t.detachAll dropped
  return (kept, !t.endsInJump kept)

/-- A body closed so that control cannot run out of it, and no `break` follows a jump. -/
def closed (statements : List NodeId) : Pass (List Draft) := do
  let (kept, isOpen) ← trimBody statements
  return kept.map .kept ++ if isOpen then [.fresh .breakStatement none []] else []

/-- Closes the branch of a case that stays an `if`.  A `break` added to it stays loose until the
branch gets its new place. -/
def closeBranch (branch : NodeId) : Pass Unit := do
  let (kept, isOpen) ← trimBody (← Pass.statementsOf branch)
  Pass.change fun t =>
    if isOpen then
      let (added, t) := t.addLoose (Tree.bareNode .breakStatement none none)
      t.setRole branch .statements (.many (kept ++ [added]))
    else t.setRole branch .statements (.many kept)

def section? (subjectType : Option Ty) (switchCase : SwitchCase) : Pass Draft := do
  let body ← Pass.statementsOf (← Pass.child switchCase.statement .thenBranch)
  let closedBody ← closed body
  let labels ← switchCase.labels.mapM (labelOver subjectType)
  return .fresh .switchSection ((← Pass.tree).position switchCase.statement)
    [(.labels, .many labels), (.body, .many closedBody)]

/-- The subject of the switch.  Labels that are members of an enumeration need a subject of that
type. -/
def castForLabels (t : Tree) (subject : NodeId) (labels : List NodeId) : Draft :=
  match labels.findSome? fun label => (t.typeOf label).filter Ty.isEnum with
  | none => .kept subject
  | some type =>
    match t.typeOf subject with
    | some subjectType => if subjectType.isEnum then .kept subject else .cast type (.kept subject)
    | none => .kept subject

/-- Keeps the subject in a local variable: its declaration, and the variable that takes its
place. -/
def keepSubject (temporary : Symbol) (assignment subject : NodeId) : Pass (Draft × NodeId) := do
  let type := temporary.type <|> (← Pass.typeAt subject)
  let symbol ← Pass.coin .localVariable (temporary.name.mapText surfacedName) type
  Pass.remove subject
  Pass.put assignment .right (.ofSymbol symbol none)
  return (.declaration symbol type (some (.kept subject)) none, ← Pass.child assignment .right)

/-- Puts a copy of the subject in the place of each mention of the temporary in a condition. -/
def restoreSubject (temporary : Symbol) (subject statement : NodeId) : Pass Unit := do
  let condition ← Pass.child statement .condition
  let t ← Pass.tree
  ((t.walk condition).filter (t.isReferenceTo temporary)).forM fun mention => do
    let _ ← Pass.replace mention ((← Pass.tree).copy subject)

def breakOut (gotos : List NodeId) : Pass Unit :=
  gotos.forM fun goto => do
    let _ ← Pass.replace goto (.fresh .breakStatement ((← Pass.tree).position goto) [])

def defaultSection (statements : List NodeId) : Pass (List Draft) := do
  if statements.isEmpty then return []
  else
    return [.fresh .switchSection none [(.labels, .many []), (.body, .many (← closed statements))]]

/-- The subject of the switch, with the declarations it needs.  A value that may not be evaluated
twice is kept in a variable if cases that stay `if` statements are going to ask for it. -/
def chooseSubject (lowered : LoweredSwitch) (assignment assigned : NodeId) :
    Pass (List Draft × NodeId) := do
  if !lowered.movingCases.isEmpty && !(← Pass.tree).isSideEffectFree assigned then do
    let (declaration, subject) ← keepSubject lowered.temporary assignment assigned
    return ([declaration], subject)
  else return ([], assigned)

/-- Puts the subject in the place of the temporary in the cases that stay `if` statements, and
`break` in the place of the jumps to the end. -/
def refresh (lowered : LoweredSwitch) (subject : NodeId) : Pass Unit := do
  lowered.movingCases.forM fun switchCase =>
    restoreSubject lowered.temporary subject switchCase.statement
  breakOut ((← Pass.tree).gotosTo lowered.endLabel lowered.block)

/-- Replaces the statements of a lowered switch by the switch over a subject, after some
declarations. -/
def assemble (lowered : LoweredSwitch) (first : NodeId) (subjectType : Option Ty)
    (opening : List Draft) (subject : NodeId) : Pass Unit := do
  let sections ← lowered.constantCases.mapM (section? subjectType)
  lowered.movingCases.forM fun switchCase => do
    closeBranch (← Pass.child switchCase.statement .thenBranch)
  let defaults ← defaultSection (lowered.movingCases.map (·.statement) ++ lowered.defaults)
  Pass.remove subject
  let t ← Pass.tree
  let switchDraft : Draft := .fresh .switchStatement (t.position first)
    [(.subject, .one (castForLabels t subject (lowered.cases.flatMap (·.labels)))),
      (.sections, .many (sections ++ defaults))]
  let place := t.position lowered.block
  let _ ← Pass.refill lowered.block .statements (opening ++ [switchDraft])
  Pass.say 3 ("Switch over " ++ lowered.temporary.name.plain ++ " at " ++ placeText place)

def rebuild (lowered : LoweredSwitch) : Pass Unit := do
  let first ← match (← Pass.tree).listed lowered.block .statements with
    | first :: _ => pure first
    | [] => throw .unfit
  let assignment ← Pass.child first .expression
  let assigned ← Pass.child assignment .right
  let subjectType := (← Pass.typeAt assigned) <|> lowered.temporary.type
  let (opening, subject) ← chooseSubject lowered assignment assigned
  refresh lowered subject
  assemble lowered first subjectType opening subject

def rebuildRule : Pass.Rule := fun visit id => do
  let t ← Pass.tree
  if t.kind id = .block then
    match ← Pass.ofExcept (t.loweredSwitch? id) with
    | some lowered => rebuild lowered
    | none => pure ()
  Pass.descend visit id

end Switch

end UnitySharp
