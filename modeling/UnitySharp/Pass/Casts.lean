import UnitySharp.Pass.Basic

/-!
# Casts

Where UnityScript converts a value on its own and C# wants it spelled out, a cast goes in.  A value
meets a declared type on the right of an assignment, as the initial value of a variable or field, as
an argument, and in a `return`.
-/

namespace UnitySharp.Casts

/-- A family of conversions: when a value of the source type has to be cast to the target type, and
the kinds of things whose arguments are looked at. -/
structure Conversion where
  needed : Option Ty → Option Ty → Bool
  callables : List BindingKind

def convert (conversion : Conversion) (expression : NodeId) (target : Option Ty) : Pass Unit := do
  let source ← Pass.typeAt expression
  match target with
  | some type => if conversion.needed (some type) source then Pass.wrapInCast expression type
  | none => pure ()

def convertInitializer (conversion : Conversion) (id : NodeId) : Pass Unit := do
  let t ← Pass.tree
  if !t.lacks id .initializer && !t.lacks id .typeRef then
    let declared ← Pass.typeIn id .typeRef
    convert conversion (← Pass.child id .initializer) declared

def convertArguments (conversion : Conversion) (id : NodeId) : Pass Unit := do
  let t ← Pass.tree
  match (t.binding id).filter fun callee => conversion.callables.contains callee.kind with
  | none => pure ()
  | some callee =>
    ((t.listed id .arguments).zip callee.parameters).forM fun (argument, parameter) => do
      if !parameter.byRef then convert conversion argument parameter.type

/-- Converts what a method returns.  What a closure returns is left alone. -/
def convertReturn (conversion : Conversion) (id : NodeId) : Pass Unit := do
  let t ← Pass.tree
  if !t.lacks id .expression then
    match t.ancestor? (fun kind => kind.isMethod || kind == .closure) id with
    | none => pure ()
    | some owner =>
      if (t.kind owner).isMethod && !t.lacks owner .returnType then
        let declared ← Pass.typeIn owner .returnType
        convert conversion (← Pass.child id .expression) declared

/-- Converts at every place where a value meets a declared type, children first.  `atOperator` deals
with operators on top of that. -/
def conversionRule (conversion : Conversion) (atOperator : NodeId → Name → Pass Unit) : Pass.Rule :=
  fun visit id => do
    Pass.descend visit id
    match (← Pass.tree).shape id with
    | .binary op _ =>
      if op.is "=" then
        let declared ← Pass.typeIn id .left
        convert conversion (← Pass.child id .right) declared
      atOperator id op
    | .declaration _ _ | .field _ _ _ => convertInitializer conversion id
    | .invocation _ => convertArguments conversion id
    | .returnStatement => convertReturn conversion id
    | _ => pure ()

/-- The casts that numbers and values of type `object` need. -/
def valueConversion : Conversion :=
  { needed := Ty.needsCast, callables := [.method, .constructor] }

/-- Arithmetic of which only one side is known to be a number becomes arithmetic in that number's
type. -/
def settleArithmetic (id : NodeId) (op : Name) : Pass Unit := do
  let isArithmetic ← Pass.ofExcept (op.isIn ["+", "-", "*", "/", "%"])
  if isArithmetic && ((← Pass.tree).typeOf id).any Ty.isObject then
    let left ← Pass.child id .left
    let right ← Pass.child id .right
    let leftType ← Pass.typeAt left
    let rightType ← Pass.typeAt right
    match leftType.filter Ty.isNumeric, rightType.filter Ty.isNumeric with
    | some type, _ =>
      Pass.setType id (some type)
      Pass.wrapInCast right type
    | none, some type =>
      Pass.setType id (some type)
      Pass.wrapInCast left type
    | none, none => pure ()

def valueRule : Pass.Rule :=
  conversionRule valueConversion settleArithmetic

/-- The casts between enumerations and numbers. -/
def enumConversion : Conversion :=
  { needed := Ty.enumMismatch, callables := [.method, .constructor, .property] }

/-- In a test for equality, the side that is no enumeration is cast to the one that is. -/
def settleEquality (id : NodeId) (op : Name) : Pass Unit := do
  if op.isAmong ["==", "!="] then
    let left ← Pass.child id .left
    let right ← Pass.child id .right
    let leftType ← Pass.typeAt left
    let rightType ← Pass.typeAt right
    if Ty.enumMismatch leftType rightType then
      match leftType, rightType with
      | some leftType, some rightType =>
        if leftType.isEnum then Pass.wrapInCast right leftType else Pass.wrapInCast left rightType
      | _, _ => pure ()

def enumRule : Pass.Rule :=
  conversionRule enumConversion settleEquality

end UnitySharp.Casts
