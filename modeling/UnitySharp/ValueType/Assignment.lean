import UnitySharp.Pass.Basic

/-!
# Value types

Making a value of a value type, and writing to its members.
-/

namespace UnitySharp

/-! ## Initialized value types

`Eval` is a function of the front end's own that evaluates its arguments in order and yields the
last. A value type made without a constructor of its own comes as `Eval(InitValueType(T, ...))`,
which is plainly `new T(...)`.
-/

def Tree.isBuiltinCall (t : Tree) (name : String) (id : NodeId) : Bool :=
  t.kind id == .invocation &&
    (t.binding id).any fun callee => callee.kind == .builtin && callee.name.is name

namespace ValueType

def initializedType (arguments : List NodeId) : Pass (Option Ty) := do
  match arguments with
  | [] => return none
  | first :: _ =>
    match (← Pass.tree).namedSymbol? first with
    | some symbol =>
      if symbol.kind = .type then return symbol.type <|> (← Pass.typeAt first)
      else Pass.typeAt first
    | none => Pass.typeAt first

def initializationRule : Pass.Rule := fun visit id => do
  Pass.descend visit id
  let t ← Pass.tree
  match t.listed id .arguments with
  | [] => pure ()
  | first :: _ =>
    if t.isBuiltinCall "Eval" id && t.isBuiltinCall "InitValueType" first then
      let arguments := t.listed first .arguments
      match ← initializedType arguments with
      | none =>
        Pass.flag "InitValueType" "cannot tell which type is initialized" (t.position id)
      | some type =>
        let symbol ← Pass.coin .constructor type.name (some type)
        let _ ← Pass.replace id
          (.invocation (.ofSymbol symbol none) (arguments.tail.map .kept) (some type)
            (t.position id))

end ValueType

end UnitySharp

/-! ## Assignments to members of value types

Writing a member of a member of a value type comes as an `Eval` of assignments: copy, change, write
back. Such a statement becomes a block with a statement for each step, in which the temporaries are
locals.
-/

namespace UnitySharp.ValueType

/-- The locals that stand for temporaries so far, by the names of the temporaries. -/
abbrev Locals := List (String × Symbol)

def localOf? (t : Tree) (locals : Locals) (id : NodeId) : Except Fault (Option Symbol) :=
  match t.shape id with
  | .reference name _ _ => name.find? locals
  | _ => .ok none

/-- A subtree with its references to temporaries turned into references to their locals. -/
def renamedWithin (t : Tree) (locals : Locals) : Nat → NodeId → Except Fault Draft
  | 0, id => .ok (.kept id)
  | depth + 1, id => do
    match ← localOf? t locals id with
    | some symbol => .ok (.ofSymbol symbol (t.position id))
    | none =>
      let kids ← (t.node id).kids.mapM fun entry => do
        .ok (entry.1, ← entry.2.mapM (renamedWithin t locals depth))
      .ok (.amended id kids)

def isRenamed (t : Tree) (locals : Locals) (id : NodeId) : Bool :=
  match localOf? t locals id with
  | .ok (some _) => true
  | _ => false

/-- A subtree with its references to temporaries turned into references to their locals, which cuts
the old references loose. -/
def renamed (locals : Locals) (id : NodeId) : Pass Draft := do
  let t ← Pass.tree
  let draft ← Pass.ofExcept (renamedWithin t locals (t.size + 1) id)
  Pass.change fun t => t.detachAll ((t.walk id).filter (isRenamed t locals))
  return draft

structure Expansion where
  locals : Locals
  statements : List Draft

def Expansion.add (expansion : Expansion) (statement : Draft) : Expansion :=
  { expansion with statements := expansion.statements ++ [statement] }

def Expansion.addStep (expansion : Expansion) (step : NodeId) (left right : Draft) : Expansion :=
  expansion.add (.expressionStatement (.amended step [(.left, .one left), (.right, .one right)]))

def declareTemporary (expansion : Expansion) (step : NodeId) (name : String) (type : Option Ty)
    (right : Draft) : Pass Expansion := do
  let t ← Pass.tree
  let rightType : Except Fault (Option Ty) :=
    match right.type? t with
    | some type => .ok type
    | none => .error .unfit
  let type ← Pass.ofExcept (Tree.typeOr type (Tree.typeOr (t.typeOf step) rightType))
  let symbol ← Pass.coin .localVariable (surfacedName name) type
  Pass.change fun t => t.setRole step .right .empty
  let declared := expansion.add (.declaration symbol type (some right) none)
  return { declared with locals := (name, symbol) :: declared.locals }

/-- Adds one assignment to an expansion.  The first one to a temporary declares its local. -/
def expandStep (expansion : Expansion) (step : NodeId) : Pass Expansion := do
  Pass.remove step
  let locals := expansion.locals
  let right ← renamed locals (← Pass.child step .right)
  let left ← Pass.child step .left
  let t ← Pass.tree
  match t.shape left with
  | .reference name _ type =>
    let name ← Pass.ofExcept (name.asText .unfit)
    match List.lookup name locals with
    | some symbol => return expansion.addStep step (.ofSymbol symbol (t.position left)) right
    | none =>
      if isMarked name then declareTemporary expansion step name type right
      else return expansion.addStep step (.kept left) right
  | _ => return expansion.addStep step (← renamed locals left) right

/-- Replaces a statement that evaluates assignments by a block with a statement for each. -/
def expand (statement : NodeId) (steps : List NodeId) : Pass Unit := do
  let expansion ← steps.foldlM expandStep ⟨[], []⟩
  let _ ← Pass.replace statement
    (.block expansion.statements ((← Pass.tree).position statement))
  Pass.say 3 ("Expanded a value-type member assignment into " ++
    toString expansion.statements.length ++ " statements")

/-- Whether a node evaluates assignments and nothing else. -/
def isEvalOfAssignments (t : Tree) (id : NodeId) : Bool :=
  let steps := t.listed id .arguments
  t.isBuiltinCall "Eval" id && !steps.isEmpty && steps.all fun step => (t.shape step).isAssignment

/-- Expands assignments to members of value types where they are statements, and flags them where
their value is used. -/
def assignmentRule : Pass.Rule := fun visit id => do
  let t ← Pass.tree
  match t.kind id with
  | .expressionStatement =>
    match (t.only? id .expression).filter (isEvalOfAssignments t) with
    | some expression => expand id (t.listed expression .arguments)
    | none => Pass.descend visit id
  | .invocation =>
    if t.isBuiltinCall "Eval" id then
      Pass.flag "Eval" "value-type member assignment used as a value" (t.position id)
    Pass.descend visit id
  | _ => Pass.descend visit id

end UnitySharp.ValueType
