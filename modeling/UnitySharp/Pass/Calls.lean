import UnitySharp.Pass.Basic

/-!
# Calls

Passes over methods that are called by the program or by the engine.
-/

/-! ## Operator methods

A call of an operator method goes back to being an operator: `Vector3.op_Addition(a, b)` is `a + b`.
-/

namespace UnitySharp.OperatorCalls

def binaryMethods : List (String × String) :=
  [("op_Addition", "+"), ("op_Subtraction", "-"), ("op_Multiply", "*"), ("op_Division", "/"),
    ("op_Modulus", "%"), ("op_Equality", "=="), ("op_Inequality", "!="), ("op_LessThan", "<"),
    ("op_GreaterThan", ">"), ("op_LessThanOrEqual", "<="), ("op_GreaterThanOrEqual", ">="),
    ("op_BitwiseAnd", "&"), ("op_BitwiseOr", "|"), ("op_ExclusiveOr", "^"), ("op_LeftShift", "<<"),
    ("op_RightShift", ">>")]

def unaryMethods : List (String × String) :=
  [("op_UnaryNegation", "-"), ("op_LogicalNot", "not"), ("op_OnesComplement", "~")]

def runtimeMethods : List (String × String) :=
  [("EqualityOperator", "==")]

def isRuntimeHelper (callee : Symbol) : Bool :=
  callee.declaring.any fun type =>
    "RuntimeServices".toList.reverse.isPrefixOf type.name.toList.reverse

inductive Meaning where
  | binary (op : String)
  | unary (op : String)
  | conversion
  | plainCall
deriving DecidableEq, Repr

def meaning (callee : Symbol) (arity : Nat) : Except Fault Meaning := do
  if callee.kind == .method && callee.isStatic then
    let binaryOp ← callee.name.find?
      (if isRuntimeHelper callee then runtimeMethods else binaryMethods)
    let unaryOp ← callee.name.find? unaryMethods
    match binaryOp, unaryOp, arity with
    | some op, _, 2 => .ok (.binary op)
    | _, some op, 1 => .ok (.unary op)
    | _, _, 1 => .ok (if callee.name.is "op_Implicit" then .conversion else .plainCall)
    | _, _, _ => .ok .plainCall
  else .ok .plainCall

def restore (id : NodeId) : Pass Unit := do
  let t ← Pass.tree
  match t.binding id with
  | none => pure ()
  | some callee =>
    let arguments := t.listed id .arguments
    let type := t.typeOf id
    match ← Pass.ofExcept (meaning callee arguments.length), arguments with
    | .binary op, [left, right] =>
      let _ ← Pass.replace id (.binary op (.kept left) (.kept right) type (t.position id))
    | .unary op, [operand] =>
      let _ ← Pass.replace id (.unary op (.kept operand) type (t.position id))
    | .conversion, [operand] =>
      Pass.setType operand type
      let _ ← Pass.replace id (.kept operand)
    | _, _ => pure ()

def rule : Pass.Rule := fun visit id => do
  Pass.descend visit id
  if (← Pass.tree).kind id = .invocation then restore id

end UnitySharp.OperatorCalls

/-! ## Component lookups

The engine's lookups take the type of a component as an argument, by name or even as a text; in C#
they are generic: `GetComponent(Rigidbody)` becomes `GetComponent<Rigidbody>()`.  What `Instantiate`
copies keeps its type by a checked cast.
-/

namespace UnitySharp.ComponentCalls

/-- The lookups, with whether they yield an array of components. -/
def lookups : List (String × Bool) :=
  [("GetComponent", false), ("AddComponent", false), ("GetComponentInChildren", false),
    ("GetComponents", true), ("GetComponentsInChildren", true)]

def lookupsByText : List String :=
  ["GetComponent", "AddComponent"]

def isNameStart (c : Char) : Bool :=
  isAsciiLetter c || c == '_'

/-- Whether the characters after a name are further names after dots, for at most `fuel` of them. -/
def isDottedRest : Nat → List Char → Bool
  | 0, cs => isAtEnd cs
  | fuel + 1, cs =>
    match cs with
    | '.' :: c :: rest => isNameStart c && isDottedRest fuel (rest.dropWhile isWordChar)
    | _ => isAtEnd cs

def isTypeName (s : String) : Bool :=
  match s.toList with
  | [] => false
  | c :: rest => isNameStart c && isDottedRest rest.length (rest.dropWhile isWordChar)

/-- The component that the argument of a lookup stands for. -/
def componentType? (t : Tree) (callee : Name) (argument : NodeId) : Except Fault (Option Ty) := do
  match t.namedType? argument with
  | some named => .ok (some named)
  | none =>
    match t.shape argument with
    | .literal value type =>
      if callee.isAmong lookupsByText && type == some Ty.string then
        let text ← (Name.ofJson value).asText .mistyped
        .ok (if isTypeName text then some (Ty.plain text .classType) else none)
      else .ok none
    | _ => .ok none

def makeGeneric (id : NodeId) (component result : Ty) : Pass Unit := do
  let t ← Pass.tree
  let target ← Pass.child id .target
  let _ ← Pass.refill id .arguments []
  let _ ← Pass.replace target
    (.fresh (.genericRef none) (t.position target)
      [(.target, .one (.kept target)), (.arguments, .many [.typeRef component])])
  Pass.setType id (some result)

def keepType (id model : NodeId) : Pass Unit := do
  match ← Pass.typeAt model with
  | some type =>
    if type.isReference && !type.isArray then
      let _ ← Pass.replace id
        (.fresh (.tryCast (some type)) ((← Pass.tree).position id)
          [(.operand, .one (.kept id)), (.typeRef, .one (.typeRef type))])
  | none => pure ()

def restore (id : NodeId) : Pass Unit := do
  let t ← Pass.tree
  match (t.binding id).filter fun callee => callee.kind == .method with
  | none => pure ()
  | some callee =>
    match ← Pass.ofExcept (callee.name.find? lookups), t.listed id .arguments with
    | some isArray, [argument] =>
      match ← Pass.ofExcept (componentType? t callee.name argument) with
      | some component =>
        makeGeneric id component (if isArray then .array component 1 else component)
      | none => pure ()
    | _, [model, _, _] => if callee.name.is "Instantiate" then keepType id model
    | _, _ => pure ()

def rule : Pass.Rule := fun visit id => do
  Pass.descend visit id
  if (← Pass.tree).kind id = .invocation then restore id

end UnitySharp.ComponentCalls

/-! ## Entry points

The statements at the top level of a script land in a method `Main` without parameters, which the
engine never calls; it calls `Start`.  So the statements of `Main` go in front of those of `Start`,
or `Main` becomes `Start` where there is none.
-/

namespace UnitySharp

def Tree.parameterless? (t : Tree) (type : NodeId) (name : String) : Option NodeId :=
  (t.listed type .members).find? fun member =>
    match t.shape member with
    | .method head => head.name.is name && (t.listed member .parameters).isEmpty
    | _ => false

namespace EntryPoint

/-- Moves the statements of one method in front of those of another, and removes it. -/
def merge (main start : NodeId) : Pass Unit := do
  let mainBody ← Pass.child main .body
  let moved ← Pass.statementsOf mainBody
  let _ ← Pass.refill mainBody .statements []
  let startBody ← Pass.child start .body
  let present ← Pass.statementsOf startBody
  let _ ← Pass.refill startBody .statements ((moved ++ present).map .kept)
  Pass.remove main
  Pass.say 3 ("Merged Main into Start in " ++ (← Pass.tree).path.plain)

def rule : Pass.Rule := fun visit id => do
  let t ← Pass.tree
  if t.kind id = .typeDef then
    match t.parameterless? id "Main" with
    | some main =>
      let statements ← Pass.statementsOf (← Pass.child main .body)
      if !statements.isEmpty then
        match t.parameterless? id "Start" with
        | some start => merge main start
        | none => Pass.reshape main fun shape => shape.mapName fun _ => "Start"
    | none => pure ()
  Pass.descend visit id

end EntryPoint

end UnitySharp
