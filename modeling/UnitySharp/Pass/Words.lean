import UnitySharp.Pass.Basic

/-!
# Statements and words

Passes that bring what UnityScript allows within the rules of C#: iterators, conditions,
initializers and names.
-/

/-! ## Iterators

A method that yields but declares no return type, or `void`, returns an `IEnumerator`.
-/

namespace UnitySharp.Iterators

def declareIterator (id : NodeId) : Pass Unit := do
  let t ← Pass.tree
  match t.ancestor? (fun kind => kind.isMethod || kind == .closure) id with
  | none => pure ()
  | some owner =>
    if t.kind owner = .method then
      let isUndeclared ←
        if t.lacks owner .returnType then pure true
        else
          match ← Pass.typeIn owner .returnType with
          | some type => pure type.isVoid
          | none => throw .unfit
      if isUndeclared then Pass.put owner .returnType (.typeRef Ty.enumerator)

def rule : Pass.Rule := fun visit id => do
  if (← Pass.tree).kind id = .yieldStatement then declareIterator id
  Pass.descend visit id

end UnitySharp.Iterators

/-! ## Tests for truth

UnityScript tests anything for truth, C# only `bool`.  Where a condition is expected, anything else
is compared with its zero: null for references, zero for numbers, the zero member of an
enumeration.  The negation of anything else turns into an equality with its zero.
-/

namespace UnitySharp.TruthTests

/-- What an expression of some type has to be compared with to be a truth value; nothing if it is
one. -/
def zeroOf? (type : Option Ty) : Option Draft :=
  match type with
  | none => none
  | some type => if type.isBoolean then none else Draft.zeroFor type

def promote (expression : NodeId) : Pass Unit := do
  match zeroOf? (← Pass.typeAt expression) with
  | some zero =>
    let _ ← Pass.replace expression (.comparison "!=" (.kept expression) zero none)
  | none => pure ()

def visitNegation (visit : NodeId → Pass Unit) (id : NodeId) : Pass Unit := do
  let t ← Pass.tree
  let operand ← Pass.child id .operand
  match zeroOf? (← Pass.typeAt operand) with
  | some zero =>
    let equality ← Pass.replace id (.comparison "==" (.kept operand) zero (t.position id))
    Pass.descend visit equality
  | none => Pass.descend visit id

def rule : Pass.Rule := fun visit id => do
  match (← Pass.tree).shape id with
  | .ifStatement | .whileLoop | .conditional _ =>
    promote (← Pass.child id .condition)
    Pass.descend visit id
  | .binary op _ =>
    if ← Pass.ofExcept (op.isIn ["and", "or"]) then
      promote (← Pass.child id .left)
      promote (← Pass.child id .right)
    Pass.descend visit id
  | .unary op _ _ =>
    if op.is "not" then visitNegation visit id else Pass.descend visit id
  | _ => Pass.descend visit id

end UnitySharp.TruthTests

/-! ## Guarded field initializers

Field initializers that depend on the state of a constructor come out of the front end behind a
guard that jumps over them once they have run.  The guard is turned around, and the statements it
protects move into it up to the label.
-/

namespace UnitySharp.FieldGuards

/-- The label that a guard jumps to: an `if` without an else, on a guard field of the object itself,
whose branch starts with a jump. -/
def guardLabel? (t : Tree) (id : NodeId) : Except Fault (Option Name) := do
  match t.only? id .condition with
  | none => .ok none
  | some condition =>
    match t.shape condition with
    | .memberAccess name _ _ =>
      if (t.only? condition .target).any (fun target => t.kind target == .selfRef) then
        let isGuard := isGuardName (← name.asText .mistyped)
        if isGuard && t.lacks id .elseBranch then
          let statements ← t.statementsOf (← t.child id .thenBranch)
          match statements.head?.map t.shape with
          | some (.goto label) => .ok (some label)
          | _ => .ok none
        else .ok none
      else .ok none
    | _ => .ok none

def isLabelNamed (t : Tree) (name : Name) (id : NodeId) : Bool :=
  match t.shape id with
  | .label label => label.same name
  | _ => false

/-- Moves the statements between a guard and its label into the guard, and turns its condition
around. -/
def invert (id : NodeId) (label : Name) : Pass Unit := do
  let t ← Pass.tree
  match (t.parent id).filter fun parent => t.kind parent == .block with
  | none => pure ()
  | some block =>
    let statements := t.listed block .statements
    let start := statements.idxOf id + 1
    let rest := statements.drop start
    let moved := rest.takeWhile fun statement => !isLabelNamed t label statement
    if moved.length < rest.length then
      let kept := statements.take start ++ rest.drop (moved.length + 1)
      let _ ← Pass.refill block .statements (kept.map .kept)
      let _ ← Pass.refill (← Pass.child id .thenBranch) .statements (moved.map .kept)
      let condition ← Pass.child id .condition
      let _ ← Pass.replace condition (.unary "not" (.kept condition) (some Ty.bool) none)

def unmark (id : NodeId) : Pass Unit := do
  match ((← Pass.tree).shape id).name? with
  | some name =>
    if isGuardName (← Pass.ofExcept (name.asText .mistyped)) then
      Pass.reshape id fun shape => shape.mapName fun name => name.mapText unmarkedName
  | none => pure ()

def rule : Pass.Rule := fun visit id => do
  match (← Pass.tree).kind id with
  | .ifStatement =>
    match ← Pass.ofExcept (guardLabel? (← Pass.tree) id) with
    | some label => invert id label
    | none => pure ()
  | .memberAccess | .field => unmark id
  | _ => pure ()
  Pass.descend visit id

end UnitySharp.FieldGuards

/-! ## Reserved words

Words that are keywords in C# and ordinary names in UnityScript get an `@` in front wherever they
name something.  Types may be used before they are declared, so their new names are learned first.
-/

namespace UnitySharp.ReservedWords

def reserved : List String :=
  ["abstract", "alias", "async", "await", "base", "bool", "checked", "const", "decimal", "delegate",
    "dynamic", "event", "explicit", "extern", "fixed", "foreach", "goto", "implicit", "is", "lock",
    "nameof", "namespace", "object", "operator", "out", "params", "readonly", "ref", "remove",
      "sealed",
    "sizeof", "stackalloc", "string", "struct", "unchecked", "unsafe", "using", "volatile"]

def escaped (name : String) : String :=
  if reserved.contains name then "@" ++ name else name

/-- The kinds of things whose names are marked wherever they are used. -/
def escapedKinds : List BindingKind :=
  [.field, .parameter, .property, .method, .localVariable]

def reservedName? (t : Tree) (id : NodeId) : Except Fault (Option String) :=
  match t.shape id with
  | .typeDef name _ _ _ _ => name.key?.map fun key => key.filter reserved.contains
  | _ => .ok none

def noteRenaming (t : Tree) (name : String) : Tree :=
  if t.renamed.any fun entry => entry.1 == name then
    { t with renamed := t.renamed.map fun entry =>
        if entry.1 == name then (name, escaped name) else entry }
  else { t with renamed := t.renamed ++ [(name, escaped name)] }

def currentName (t : Tree) (name : String) : String :=
  (List.lookup name t.renamed).getD name

def rule : Pass.Rule := fun visit id => do
  let t ← Pass.tree
  match t.shape id with
  | .typeDef _ _ _ _ _ | .enumMember _ | .method _ | .constructor _ | .field _ _ _
  | .parameter _ _ _ | .declaration _ _ | .memberAccess _ _ _ =>
    Pass.rename id escaped
    Pass.descend visit id
  | .reference _ (some symbol) _ =>
    if escapedKinds.contains symbol.kind then Pass.rename id escaped
    else if symbol.kind == .type then Pass.rename id (currentName t)
  | _ => Pass.descend visit id

def learnRenamings : Pass Unit := do
  let t ← Pass.tree
  (t.walk t.root).forM fun id => do
    match ← Pass.ofExcept (reservedName? t id) with
    | some name => Pass.change fun t => noteRenaming t name
    | none => pure ()

def pass : Pass Unit := do
  learnRenamings
  Pass.everywhere rule

end UnitySharp.ReservedWords
