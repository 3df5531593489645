import UnitySharp.Pass.Basic

/-!
# Functions as values

UnityScript's catch-all function type becomes `Delegate`, a call through it a dynamic invocation,
and a method named where a delegate is wanted is cast to the delegate type of its own
signature.  `parseInt` and `parseFloat` become `int.Parse` and `float.Parse`, and the static methods
of an enumeration those of `System.Enum`.
-/

namespace UnitySharp.FunctionReferences

def numberReaders : List (String × Ty) :=
  [("parseInt", Ty.int), ("parseFloat", Ty.float)]

/-- Declares a holder of functions as a delegate; says whether it was one. -/
def retype (holder : NodeId) : Pass Bool := do
  let t ← Pass.tree
  if t.lacks holder .typeRef then return false
  else
    let typeRef ← Pass.child holder .typeRef
    if (← Pass.typeAt typeRef) == some Ty.callable then
      let _ ← Pass.replace typeRef (.fresh (.typeRef (some Ty.delegate)) (t.position typeRef) [])
      return true
    else return false

/-- Casts a method named without a call to the delegate type of its signature. -/
def castToSignature (expression : NodeId) : Pass Unit := do
  match (← Pass.tree).methodGroup? expression with
  | some method => Pass.wrapInCast expression method.signatureType
  | none => pure ()

def castInRole (id : NodeId) (role : Role) : Pass Unit := do
  match (← Pass.tree).only? id role with
  | some expression => castToSignature expression
  | none => pure ()

def retypeVariable (id : NodeId) : Pass Unit := do
  if ← retype id then castInRole id .initializer

def takeAsValue (argument : NodeId) : Pass Unit := do
  let t ← Pass.tree
  match t.namedType? argument with
  | some named =>
    let _ ← Pass.replace argument (.typeOf named none (t.position argument))
  | none => pure ()

/-- Reaches the static methods of an enumeration through `System.Enum`, with its type as a value. -/
def redirectEnumMethod (id : NodeId) : Pass Unit := do
  let t ← Pass.tree
  match (t.only? id .target).filter fun target => (t.namedType? target).any Ty.isEnum with
  | none => pure ()
  | some target =>
    if (t.symbolOf id).any fun symbol => symbol.kind == .method then
      let _ ← Pass.replace target (.typeName Ty.systemEnum (t.position target))
      match (t.parent id).filter fun parent => t.kind parent == .invocation with
      | none => pure ()
      | some parent =>
        if t.only? parent .target == some id then (t.listed parent .arguments).forM takeAsValue

/-- Writes a call that reads a number: a text is parsed, another number is cast, and what has the
type already is left as it is. -/
def readNumber (visit : NodeId → Pass Unit) (id argument : NodeId) (callee : Symbol) (type : Ty) :
    Pass Unit := do
  let argumentType ← Pass.typeAt argument
  let t ← Pass.tree
  if argumentType == some Ty.string then
    let target ← Pass.child id .target
    let method ← Pass.coin .method "Parse" (some type)
    let method := { method with isStatic := true, declaring := some type }
    let _ ← Pass.replace target
      (.memberAccess (.one (.typeName type none)) "Parse" (some method) (some type)
        (t.position target))
    Pass.descend visit id
  else if argumentType == some type then
    let _ ← Pass.replace id (.kept argument)
    visit argument
  else
    Pass.say 1 (t.path.plain ++ " " ++ placeText (t.position id) ++ ": " ++ callee.name.plain ++
      " of a " ++ ((argumentType.map Ty.spelling).getD "None") ++
      " would want a checked cast; converting with a plain cast.")
    let _ ← Pass.replace id (.cast type (.kept argument))
    visit argument

/-- Writes a call through the catch-all function type as a dynamic invocation. -/
def invokeDynamically (target : NodeId) : Pass Unit := do
  let method ← Pass.coin .method "DynamicInvoke" (some Ty.object)
  let method := { method with declaring := some Ty.delegate }
  let t ← Pass.tree
  let _ ← Pass.replace target
    (.memberAccess (t.keptIn target .target) "DynamicInvoke" (some method) (some Ty.object)
      (t.position target))

/-- Casts the methods among the arguments of a call wherever no particular delegate type is
declared. -/
def castArguments (arguments : List NodeId) (parameters : List ParameterInfo) : Pass Unit :=
  (arguments.zip parameters).forM fun (argument, parameter) => do
    if Ty.wantsSignature parameter.type then castToSignature argument

def visitCall (visit : NodeId → Pass Unit) (id : NodeId) : Pass Unit := do
  let t ← Pass.tree
  match (t.binding id).filter fun callee => callee.kind == .method with
  | none => Pass.descend visit id
  | some callee =>
    let arguments := t.listed id .arguments
    let target ← Pass.child id .target
    let isQualified := t.kind target == .memberAccess
    match ← Pass.ofExcept (callee.name.find? numberReaders), arguments, isQualified with
    | some type, [argument], false => readNumber visit id argument callee type
    | _, _, _ =>
      if callee.name.is "Call" && callee.declaring == some Ty.callable && isQualified then
        invokeDynamically target
      else castArguments arguments callee.parameters
      Pass.descend visit id

def rule : Pass.Rule := fun visit id => do
  match (← Pass.tree).shape id with
  | .field _ _ _ | .declaration _ _ =>
    retypeVariable id
    Pass.descend visit id
  | .parameter _ _ _ =>
    let _ ← retype id
  | .binary op _ =>
    if op.is "=" then
      if (← Pass.typeIn id .left) == some Ty.callable then castInRole id .right
    Pass.descend visit id
  | .memberAccess _ _ _ =>
    redirectEnumMethod id
    Pass.descend visit id
  | .invocation _ => visitCall visit id
  | _ => Pass.descend visit id

end UnitySharp.FunctionReferences
