import UnitySharp.Tree.Query

/-!
# Capture records

The front end moves the variables that a closure captures into the fields of a made-up class.  A
block creates an object of that class, the context, in a made-up local and copies values into its
fields; every use of a captured variable goes through the context.
-/

namespace UnitySharp.Tree

def syntheticLocal? (t : Tree) (assignment : NodeId) : Option Symbol :=
  match (t.only? assignment .left).map t.shape with
  | some (.reference _ (some symbol) _) =>
    if symbol.isSynthetic && symbol.kind == .localVariable then some symbol else none
  | _ => none

def makesCaptureRecord (t : Tree) (call : NodeId) : Except Fault Bool :=
  match t.shape call, t.binding call with
  | .invocation type, some callee => do
    if (t.listed call .arguments).isEmpty &&
      (callee.kind == .constructor || callee.kind == .type) then
      let made ← match type with
        | some type => .ok type.name
        | none => callee.name.asText .unfit
      if isMarked made then .ok true else (callee.name.asText .unfit).map isMarked
    else .ok false
  | _, _ => .ok false

/-- The context that a statement creates: a made-up local set to a new object of a made-up class. -/
def contextObject? (t : Tree) (statement : NodeId) : Except Fault (Option Symbol) :=
  match t.assignmentOf? statement with
  | none => .ok none
  | some assignment =>
    match t.syntheticLocal? assignment, t.only? assignment .right with
    | some context, some right =>
      (t.makesCaptureRecord right).map fun isRecord => if isRecord then some context else none
    | _, _ => .ok none

/-- The name of the captured variable that an expression reaches through a context. -/
def capturedName? (t : Tree) (context : Symbol) (id : NodeId) : Option Name :=
  match t.shape id with
  | .memberAccess name _ _ =>
    if !name.toJson.isNull && (t.only? id .target).any (t.isReferenceTo context) then some
      name else none
  | _ => none

/-- A statement that copies a value into a context: the captured variable, the assignment and the
value. -/
structure CapturedCopy where
  name : Name
  assignment : NodeId
  value : Option NodeId

def capturedCopy? (t : Tree) (context : Symbol) (statement : NodeId) : Option CapturedCopy :=
  match t.assignmentOf? statement with
  | none => none
  | some assignment =>
    ((t.only? assignment .left).bind (t.capturedName? context)).map fun name =>
      { name, assignment, value := t.only? assignment .right }

/-- Whether a closure can name a value by itself: a parameter, a field or a local of the source. -/
def isAddressable (t : Tree) (id : NodeId) : Bool :=
  match t.shape id with
  | .reference _ (some symbol) _ =>
    symbol.kind == .parameter || symbol.kind == .field ||
      (symbol.kind == .localVariable && !symbol.isSynthetic)
  | _ => false

def declares (t : Tree) (symbol : Symbol) (id : NodeId) : Bool :=
  match t.shape id with
  | .declaration _ (some declared) => declared.isSame symbol
  | _ => false

end UnitySharp.Tree
