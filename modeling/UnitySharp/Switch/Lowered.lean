import UnitySharp.Tree.Query

/-!
# Lowered switches

The front end lowers a switch to a block: an assignment of the subject to a temporary, one `if` per
case that compares the temporary and jumps to the end, the statements of the default, and the label
of the end. A block is taken for a lowered switch only if all of it has this form.
-/

namespace UnitySharp

/-- One `if` of a lowered switch.  The labels are those it compares the temporary with that can be
case labels; it is constant if there are no others. -/
structure SwitchCase where
  statement : NodeId
  labels : List NodeId
  isConstant : Bool
deriving Repr

/-- The pieces of a block that is a lowered switch.  The subject is missing where the temporary is
not set to a single expression. -/
structure LoweredSwitch where
  block : NodeId
  temporary : Symbol
  subject : Option NodeId
  cases : List SwitchCase
  defaults : List NodeId
  endLabel : Name

namespace LoweredSwitch

def constantCases (lowered : LoweredSwitch) : List SwitchCase :=
  lowered.cases.filter (·.isConstant)

def movingCases (lowered : LoweredSwitch) : List SwitchCase :=
  lowered.cases.filter fun switchCase => !switchCase.isConstant

end LoweredSwitch

namespace Tree

/-- The temporary that a statement sets to the subject of a switch. -/
def switchTemporary? (t : Tree) (statement : NodeId) : Except Fault (Option Symbol) :=
  match (t.assignmentOf? statement).bind fun assignment => t.only? assignment .left with
  | some left =>
    match t.shape left with
    | .reference _ (some symbol) _ =>
      if symbol.kind == .localVariable && symbol.isSynthetic then
        (symbol.name.asText .mistyped).map fun name =>
          if isSwitchTemporary name then some symbol else none
      else .ok none
    | _ => .ok none
  | none => .ok none

/-- Whether an expression names a type, or something unbound whose type is known. -/
def qualifiesByType (t : Tree) (id : NodeId) : Bool :=
  match t.shape id with
  | .reference _ symbol type | .memberAccess _ symbol type =>
    match symbol with
    | some symbol => symbol.kind == .type
    | none => type.isSome
  | _ => false

def isNumericLiteral (t : Tree) (id : NodeId) : Except Fault Bool :=
  match t.shape id with
  | .literal _ (some type) => .ok type.isNumeric
  | .literal _ none => .error .unfit
  | _ => .ok false

/-- A literal, or a member of an enumeration named through its type: what can be a case label. -/
def isCaseConstant (t : Tree) (id : NodeId) : Except Fault Bool :=
  match t.shape id with
  | .literal value _ => .ok (!value.isNull)
  | .unary op _ _ =>
    match t.only? id .operand with
    | some operand => if op.is "-" then t.isNumericLiteral operand else .ok false
    | none => .ok false
  | .memberAccess _ _ type => .ok (type.any Ty.isEnum && (t.only? id .target).any t.qualifiesByType)
  | _ => .ok false

/-- What stands on the right of a comparison with a temporary, if it can be a label. -/
def comparedLabel? (t : Tree) (condition : NodeId) : Except Fault (Option NodeId) :=
  match t.only? condition .right with
  | some right => (t.isCaseConstant right).map fun isConstant =>
      if isConstant then some right else none
  | none => .ok none

/-- The comparisons with a temporary that a condition consists of, each by its label: the condition
is an equality with the temporary on the left, or several of them joined by `or`. -/
def comparisonsWithin (t : Tree) (temporary : Symbol) :
    Nat → Option NodeId → Except Fault (Option (List (Option NodeId)))
  | 0, _ => .ok none
  | _ + 1, none => .ok none
  | depth + 1, some condition =>
    match t.shape condition with
    | .binary op _ => do
      if op.is "or" then
        match ← t.comparisonsWithin temporary depth (t.only? condition .left) with
        | none => .ok none
        | some before =>
          let after ← t.comparisonsWithin temporary depth (t.only? condition .right)
          .ok (after.map (before ++ ·))
      else if op.is "==" && (t.only? condition .left).any (t.isReferenceTo temporary) then
        .ok (some [← t.comparedLabel? condition])
      else .ok none
    | _ => .ok none

def comparisons? (t : Tree) (temporary : Symbol) (statement : NodeId) :
    Except Fault (Option (List (Option NodeId))) :=
  t.comparisonsWithin temporary (t.size + 1) (t.only? statement .condition)

def switchCase? (t : Tree) (temporary : Symbol) (statement : NodeId) :
    Except Fault (Option SwitchCase) :=
  if t.kind statement = .ifStatement ∧ t.lacks statement .elseBranch = true then
    (t.comparisons? temporary statement).map fun compared =>
      compared.map fun labels =>
        { statement, labels := labels.filterMap id, isConstant := labels.all Option.isSome }
  else .ok none

def isGotoTo (t : Tree) (label : Name) (id : NodeId) : Bool :=
  match t.shape id with
  | .goto target => target.same label
  | _ => false

def gotosTo (t : Tree) (label : Name) (id : NodeId) : List NodeId :=
  (t.walk id).filter (t.isGotoTo label)

def mentions (t : Tree) (symbol : Symbol) (id : NodeId) : Bool :=
  (t.walk id).any (t.isReferenceTo symbol)

/-- Whether a `break` beneath a node would leave something else than a switch around it: a loop, a
switch, or a lowered switch. -/
def capturesBreak (t : Tree) (id : NodeId) : Except Fault Bool :=
  match t.kind id with
  | .whileLoop | .forEach | .switchStatement => .ok true
  | .block =>
    match t.listed id .statements with
    | first :: _ => (t.switchTemporary? first).map Option.isSome
    | [] => .ok false
  | _ => .ok false

def hasBuriedGotoWithin (t : Tree) (label : Name) : Nat → NodeId → Except Fault Bool
  | 0, _ => .ok false
  | depth + 1, id =>
    (t.children id).anyM fun child => do
      if ← t.capturesBreak child then .ok (!(t.gotosTo label child).isEmpty)
      else t.hasBuriedGotoWithin label depth child

/-- Whether a jump to a label stands where a `break` would not reach it. -/
def hasBuriedGoto (t : Tree) (label : Name) (id : NodeId) : Except Fault Bool :=
  t.hasBuriedGotoWithin label (t.size + 1) id

def leadingCases (t : Tree) (temporary : Symbol) : List NodeId → Except Fault (List SwitchCase)
  | [] => .ok []
  | statement :: rest => do
    match ← t.switchCase? temporary statement with
    | some read => .ok (read :: (← t.leadingCases temporary rest))
    | none => .ok []

/-- Whether a statement may stand in the default of a lowered switch. -/
def fitsDefault (t : Tree) (temporary : Symbol) (statement : NodeId) : Except Fault Bool := do
  if t.kind statement = .label then .ok false
  else if (← t.switchCase? temporary statement).isSome then .ok false
  else .ok (!t.mentions temporary statement)

def assignedSubject? (t : Tree) (statement : NodeId) : Option NodeId :=
  (t.assignmentOf? statement).bind fun assignment => t.only? assignment .right

def labelName? (t : Tree) (id : NodeId) : Option Name :=
  match t.shape id with
  | .label name => some name
  | _ => none

/-- A block read as a lowered switch over a temporary that its first statement sets. -/
def loweredOver? (t : Tree) (block first : NodeId) (temporary : Symbol) (rest : List NodeId)
    (endLabel : Name) : Except Fault (Option LoweredSwitch) := do
  let cases ← t.leadingCases temporary rest
  let defaults := rest.drop cases.length
  if cases.isEmpty then .ok none
  else if !(← defaults.allM (t.fitsDefault temporary)) then .ok none
  else if ← t.hasBuriedGoto endLabel block then .ok none
  else .ok (some
    { block, temporary, subject := t.assignedSubject? first, cases, defaults, endLabel })

def loweredSwitch? (t : Tree) (block : NodeId) : Except Fault (Option LoweredSwitch) := do
  match t.listed block .statements with
  | first :: second :: third :: others =>
    let rest := second :: third :: others
    match ← t.switchTemporary? first, rest.getLast?.bind t.labelName? with
    | some temporary, some endLabel => t.loweredOver? block first temporary rest.dropLast endLabel
    | _, _ => .ok none
  | _ => .ok none

end Tree

end UnitySharp
