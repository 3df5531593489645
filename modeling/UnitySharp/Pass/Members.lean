import UnitySharp.Pass.Basic

/-!
# Types and members

Passes that settle how types and their members are named and reached.
-/

/-! ## Access to top-level types

A type at the top level of a module may be public or internal, nothing narrower.
-/

namespace UnitySharp.TypeAccess

def narrow : List String :=
  ["private", "protected"]

def widened (modifiers : List Name) : List Name :=
  "internal" :: modifiers.filter fun modifier => !modifier.isAmong ("internal" :: narrow)

def widen (member : NodeId) : Pass Unit := do
  match (← Pass.tree).shape member with
  | .typeDef name kind modifiers type close =>
    if modifiers.any fun modifier => modifier.isAmong narrow then
      Pass.reshape member fun _ => .typeDef name kind (widened modifiers) type close
      Pass.say 3 (name.plain ++ " is now internal")
  | _ => pure ()

def rule : Pass.Rule := fun visit id => do
  let t ← Pass.tree
  if t.kind id = .module then (t.listed id .members).forM widen
  else Pass.descend visit id

end UnitySharp.TypeAccess

/-! ## Types as values

In UnityScript the bare name of a type stands for the type as a value.  C# wants `typeof` in the
arguments of calls and attributes, and wherever a value of type `System.Type` is declared.
-/

namespace UnitySharp.TypeValues

def restore (expression : NodeId) : Pass Unit := do
  let t ← Pass.tree
  match t.namedType? expression with
  | some named =>
    let _ ← Pass.replace expression (.typeOf named (some Ty.systemType) (t.position expression))
  | none => pure ()

def restoreInRole (id : NodeId) (role : Role) : Pass Unit := do
  match (← Pass.tree).only? id role with
  | some expression => restore expression
  | none => pure ()

def declaredType (id : NodeId) : Pass (Option Ty) := do
  let t ← Pass.tree
  if t.lacks id .typeRef then return (t.symbolOf id).bind (·.type) else Pass.typeIn id .typeRef

def rule : Pass.Rule := fun visit id => do
  let t ← Pass.tree
  match t.shape id with
  | .invocation _ =>
    if (t.binding id).any fun callee => callee.kind == .method || callee.kind == .constructor then
      (t.listed id .arguments).forM restore
  | .attribute _ => (t.listed id .arguments).forM restore
  | .binary op _ =>
    if op.is "=" then
      if (← Pass.typeIn id .left) == some Ty.systemType then restoreInRole id .right
  | .declaration _ _ | .field _ _ _ =>
    if (← declaredType id) == some Ty.systemType then restoreInRole id .initializer
  | _ => pure ()
  Pass.descend visit id

end UnitySharp.TypeValues

/-! ## Static members

UnityScript reaches static members through any instance; C# insists on the type that declares them.
-/

namespace UnitySharp.StaticMembers

/-- A class whose members are static on paper but never appear under its name. -/
def extensionClass : String :=
  "UnityScript.Lang.Extensions"

def isStaticMember (symbol : Symbol) : Bool :=
  symbol.isStatic && [BindingKind.field, .property, .method].contains symbol.kind

def isInstance (t : Tree) (target : NodeId) : Bool :=
  match t.symbolOf target with
  | some bound => bound.kind != .type || t.kind target == .selfRef
  | none => t.kind target == .selfRef

def rule : Pass.Rule := fun visit id => do
  let t ← Pass.tree
  match t.shape id with
  | .memberAccess _ (some member) _ =>
    match t.only? id .target with
    | some target =>
      if isStaticMember member && isInstance t target then
        let declaring ← match member.declaring with
          | some type => pure (some type)
          | none => Pass.typeAt target
        match declaring with
        | some type =>
          if type.name != extensionClass then
            let _ ← Pass.replace target (.typeName type (t.position target))
        | none => pure ()
    | none => pure ()
  | _ => pure ()
  Pass.descend visit id

end UnitySharp.StaticMembers

/-! ## Members of arrays and strings

UnityScript writes the members of arrays and strings in lower case, as in `items.length`; C#
capitalizes them.
-/

namespace UnitySharp.ArrayMembers

def arrayNames : List String :=
  ["System.Array", "Array", "UnityScript.Lang.Array"]

/-- The methods behind indexers, which keep their names. -/
def indexerMethods : List String :=
  ["get_Item", "set_Item", "get_Chars"]

def capitalizes (type : Ty) : Bool :=
  type.isArray || arrayNames.contains type.name || type == Ty.string

def capitalized (s : String) : String :=
  match s.toList with
  | [] => s
  | c :: rest => String.ofList (capitalOf c ++ rest)

def startsLowercase (s : String) : Bool :=
  s.toList.head?.any isLowercase

def memberText : Name → Except Fault String
  | .text s => .ok s
  | .other (.list _) => .error .unfit
  | .other _ => .error .mistyped

def isLowercaseMember (t : Tree) (id : NodeId) (name : Name) : Except Fault Bool := do
  let text ← memberText name
  if startsLowercase text && !indexerMethods.contains text then
    .ok ((← t.typeIn id .target).any capitalizes)
  else .ok false

def rule : Pass.Rule := fun visit id => do
  let t ← Pass.tree
  match t.shape id with
  | .memberAccess name _ _ =>
    if ← Pass.ofExcept (isLowercaseMember t id name) then
      Pass.reshape id fun shape => shape.mapName fun name => name.mapText capitalized
  | _ => pure ()
  Pass.descend visit id

end UnitySharp.ArrayMembers

/-! ## Indexers

The methods behind an indexer go back to brackets: `list.get_Item(i)` is `list[i]`, and
`list.set_Item(i, v)` is `list[i] = v`.
-/

namespace UnitySharp.Indexers

def restore (id : NodeId) : Pass Unit := do
  let t ← Pass.tree
  match t.only? id .target with
  | none => pure ()
  | some target =>
    match t.shape target with
    | .memberAccess name (some callee) _ =>
      let arguments := t.listed id .arguments
      let holder := t.keptIn target .target
      if callee.kind == .method then
        if name.is "set_Item" && 2 ≤ arguments.length then
          match arguments.getLast? with
          | some value =>
            let type ← Pass.typeAt value
            let indexer : Draft :=
              .indexer holder (arguments.dropLast.map .kept) type (t.position target)
            let _ ← Pass.replace id (.binary "=" indexer (.kept value) type (t.position id))
          | none => pure ()
        else if name.isAmong ["get_Item", "get_Chars"] && !arguments.isEmpty then
          let _ ← Pass.replace id
            (.indexer holder (arguments.map .kept) (t.typeOf id) (t.position id))
    | _ => pure ()

def rule : Pass.Rule := fun visit id => do
  Pass.descend visit id
  if (← Pass.tree).kind id = .invocation then restore id

end UnitySharp.Indexers
