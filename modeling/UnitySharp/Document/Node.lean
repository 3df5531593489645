import UnitySharp.Document.Value
import UnitySharp.Tree.Draft

/-!
# Nodes of a document

Reading a node looks at the position first, then at the children in source order, then at the
attributes in a fixed order, and only then at whether anything required is missing; the first fault
on that way is the one reported.  Fields that the kind does not call for are ignored.
-/

namespace UnitySharp

inductive AttributeName where
  | name
  | type
  | symbol
  | typeKind
  | modifiers
  | close
  | imports
  | path
  | byRef
  | label
  | op
  | postfixed
  | value
deriving DecidableEq, Repr

def NodeKind.attributeNames : NodeKind → List AttributeName
  | .module => [.imports, .close, .path]
  | .attribute => [.name]
  | .typeRef => [.type]
  | .typeDef => [.name, .typeKind, .modifiers, .type, .close]
  | .enumMember => [.name]
  | .field => [.name, .modifiers, .symbol]
  | .parameter => [.name, .byRef, .symbol]
  | .method => [.name, .modifiers, .symbol, .close]
  | .constructor => [.name, .modifiers, .symbol, .close]
  | .declaration => [.name, .symbol]
  | .goto => [.label]
  | .label => [.name]
  | .binary => [.op, .type]
  | .unary => [.op, .postfixed, .type]
  | .invocation => [.type]
  | .reference => [.name, .symbol, .type]
  | .memberAccess => [.name, .symbol, .type]
  | .literal => [.value, .type]
  | .typeOf => [.type]
  | .indexer => [.type]
  | .conditional => [.type]
  | .selfRef => [.type]
  | .superRef => [.type]
  | .genericRef => [.type]
  | .closure => [.type]
  | _ => []

def NodeKind.requiredRoles : NodeKind → List Role
  | .field => [.typeRef]
  | .parameter => [.typeRef]
  | .expressionStatement => [.expression]
  | .declaration => [.typeRef]
  | .ifStatement => [.condition, .thenBranch]
  | .whileLoop => [.condition, .body]
  | .forEach => [.declaration, .iterator, .body]
  | .switchStatement => [.subject]
  | .binary => [.left, .right]
  | .unary => [.operand]
  | .invocation => [.target]
  | .memberAccess => [.target]
  | .cast => [.typeRef, .operand]
  | .tryCast => [.operand, .typeRef]
  | .typeOf => [.typeRef]
  | .indexer => [.target]
  | .conditional => [.condition, .yes, .no]
  | .genericRef => [.target]
  | _ => []

structure GivenAttributes where
  plain : List (AttributeName × Json)
  type : Option Ty
  symbol : Option Symbol
  typeKind : TypeKind
  close : Option Position

def GivenAttributes.initial : GivenAttributes :=
  { plain := [], type := none, symbol := none, typeKind := .classType, close := none }

def GivenAttributes.find? (given : GivenAttributes) (wanted : AttributeName) : Option Json :=
  (given.plain.find? fun entry => entry.1 == wanted).map (·.2)

def AttributeName.word : AttributeName → String
  | .name => "name"
  | .type => "type"
  | .symbol => "symbol"
  | .typeKind => "type_kind"
  | .modifiers => "modifiers"
  | .close => "end"
  | .imports => "imports"
  | .path => "path"
  | .byRef => "by_ref"
  | .label => "label"
  | .op => "op"
  | .postfixed => "postfix"
  | .value => "value"

/-- What nodes of a document are read against.  `graft` recognises values that stand for subtrees
which exist already; the nodes they keep live in `tree`. -/
structure NodeReader where
  types : TypeTable
  symbols : List (String × Symbol)
  tree : Tree
  graft : Json → Except DocumentFault (Option Draft)

def declarableKinds : List TypeKind :=
  [.classType, .structType, .interfaceType, .enumType]

def readDeclaredKind (value : Json) (position : Option Position) : Except DocumentFault TypeKind :=
  if !value.isKey then .error .mistyped
  else
    match value with
    | .text word =>
      match declarableKinds.find? fun kind => kind.word == word with
      | some kind => .ok kind
      | none => .error (.undeclarable value position)
    | _ => .error (.undeclarable value position)

namespace NodeReader

def findSymbol (reader : NodeReader) (key : String) : Except DocumentFault Symbol :=
  match reader.symbols.find? fun entry => entry.1 == key with
  | some entry => .ok entry.2
  | none => .error (.danglingSymbol key)

def readAttribute (reader : NodeReader) (position : Option Position) (fields : List (String × Json))
    (given : GivenAttributes) (wanted : AttributeName) : Except DocumentFault GivenAttributes :=
  match wanted with
  | .type =>
    match Json.lookup "type" fields with
    | none => .ok given
    | some value =>
      match readType reader.types value with
      | .ok type => .ok { given with type }
      | .error fault => .error fault
  | .symbol =>
    match (Json.lookup "symbol" fields).getD .null with
    | .null => .ok given
    | value =>
      match reader.findSymbol value.plain with
      | .ok symbol => .ok { given with symbol := some symbol }
      | .error fault => .error fault
  | .typeKind =>
    match Json.lookup "type_kind" fields with
    | none => .ok given
    | some value =>
      match readDeclaredKind value position with
      | .ok typeKind => .ok { given with typeKind }
      | .error fault => .error fault
  | .close =>
    match readPosition ((Json.lookup "end" fields).getD .null) with
    | .ok close => .ok { given with close }
    | .error fault => .error fault
  | plain =>
    match Json.lookup plain.word fields with
    | none => .ok given
    | some value => .ok { given with plain := given.plain ++ [(plain, value)] }

def readAttributes (reader : NodeReader) (position : Option Position)
    (fields : List (String × Json)) (names : List AttributeName) :
    Except DocumentFault GivenAttributes :=
  names.foldlM (reader.readAttribute position fields) GivenAttributes.initial

end NodeReader

def namesOf? (absent : List Name) : Option Json → Option (List Name)
  | none => some absent
  | some value => value.items?.map fun items => items.map Name.ofJson

def literalType? : Json → Option Ty
  | .null => some Ty.null
  | .bool _ => some Ty.bool
  | .int i => some (if -2147483648 ≤ i ∧ i < 2147483648 then Ty.int else Ty.long)
  | .double _ => some Ty.float
  | .text _ => some Ty.string
  | .list _ => none
  | .record _ => none

/-- An integer that is typed as a floating point number is one. -/
def literalValue (value : Json) (type : Option Ty) : Except DocumentFault Json :=
  match type, value.integer? with
  | some type, some i =>
    if type.isFloating then
      match Double.ofInt i with
      | .infinite _ => .error .overflow
      | x => .ok (.double x)
    else .ok value
  | _, _ => .ok value

def boundType (type : Option Ty) (symbol : Option Symbol) : Option Ty :=
  type.or (symbol.bind (·.type))

/-- The shape of a node whose attributes have been read; `none` if one is missing or unusable. -/
def shapeOf? (kind : NodeKind) (given : GivenAttributes) : Option Shape :=
  let name? := (given.find? .name).map Name.ofJson
  let modifiers? := namesOf? [.text "public"] (given.find? .modifiers)
  let head? : Option MethodHead := do
    let name ← name?
    let modifiers ← modifiers?
    some { name, modifiers, symbol := given.symbol, close := given.close }
  match kind with
  | .attribute => name?.map .attribute
  | .typeRef => some (.typeRef given.type)
  | .module =>
    (namesOf? [] (given.find? .imports)).map fun imports =>
      .module (Name.ofJson ((given.find? .path).getD (.text ""))) imports given.close
  | .typeDef => do
    let name ← name?
    let modifiers ← modifiers?
    some (.typeDef name given.typeKind modifiers given.type given.close)
  | .enumMember => name?.map .enumMember
  | .field => do
    let name ← name?
    let modifiers ← modifiers?
    some (.field name modifiers given.symbol)
  | .parameter =>
    name?.map fun name => .parameter name ((given.find? .byRef).getD (.bool false)) given.symbol
  | .method => head?.map .method
  | .constructor => head?.map .constructor
  | .block => some .block
  | .expressionStatement => some .expressionStatement
  | .declaration => name?.map fun name => .declaration name given.symbol
  | .ifStatement => some .ifStatement
  | .whileLoop => some .whileLoop
  | .forEach => some .forEach
  | .goto => (given.find? .label).map fun label => .goto (Name.ofJson label)
  | .label => name?.map .label
  | .returnStatement => some .returnStatement
  | .breakStatement => some .breakStatement
  | .continueStatement => some .continueStatement
  | .yieldStatement => some .yieldStatement
  | .switchSection => some .switchSection
  | .switchStatement => some .switchStatement
  | .binary => (given.find? .op).map fun op => .binary (Name.ofJson op) given.type
  | .unary =>
    (given.find? .op).map fun op =>
      .unary (Name.ofJson op) ((given.find? .postfixed).getD (.bool false)) given.type
  | .invocation => some (.invocation given.type)
  | .reference =>
    name?.map fun name => .reference name given.symbol (boundType given.type given.symbol)
  | .memberAccess =>
    name?.map fun name => .memberAccess name given.symbol (boundType given.type given.symbol)
  | .literal => do
    let value ← given.find? .value
    let type ← given.type.or (literalType? value)
    some (.literal value (some type))
  | .cast => some (.cast none)
  | .tryCast => some (.tryCast none)
  | .typeOf => some (.typeOf given.type)
  | .indexer => some (.indexer given.type)
  | .conditional => some (.conditional given.type)
  | .selfRef => some (.selfRef given.type)
  | .superRef => some (.superRef given.type)
  | .genericRef => some (.genericRef given.type)
  | .closure => some (.closure given.type)
  | .unknown => none

def emptyBlock : Draft :=
  .fresh .block none [(.statements, .many [])]

/-- What stands in a role of a new node: the children given for it, or what stands there by default.
`none` if a single child is given for a list. -/
def roleOccupants? (kind : NodeKind) (given : List (Role × Occupants Draft)) (role : Role) :
    Plurality → Option (Occupants Draft)
  | .list =>
    match kidsAt role given with
    | .empty => some (.many [])
    | .one _ => none
    | .many drafts => some (.many drafts)
  | .single =>
    match kidsAt role given with
    | .empty =>
      match kind, role with
      | .method, .body => some (.one emptyBlock)
      | .constructor, .body => some (.one emptyBlock)
      | .closure, .body => some (.one emptyBlock)
      | _, _ => some .empty
    | occupants => some occupants

/-- The children of a new node by role; `none` if a required one is missing or a list is
expected. -/
def kidsOf? (kind : NodeKind) (given : List (Role × Occupants Draft)) :
    Option (List (Role × Occupants Draft)) :=
  if kind.requiredRoles.all fun role => !(kidsAt role given).isEmpty then
    kind.layout.mapM fun entry =>
      (roleOccupants? kind given entry.1 entry.2).map fun occupants => (entry.1, occupants)
  else none

/-- The shape of a cast takes its type from the type it names. -/
def castType (tree : Tree) (shape : Shape) (kids : List (Role × Occupants Draft)) :
    Except DocumentFault Shape :=
  match shape.kind with
  | .cast | .tryCast =>
    match kidsAt .typeRef kids with
    | .one draft =>
      match draft.type? tree with
      | some type => .ok (shape.withType type)
      | none => .error .unfit
    | _ => .error .unfit
  | _ => .ok shape

def settleLiteral (kind : NodeKind) (given : GivenAttributes) :
    Except DocumentFault GivenAttributes :=
  match kind, given.find? .value with
  | .literal, some value =>
    (literalValue value given.type).map fun value => { given with plain := [(.value, value)] }
  | _, _ => .ok given

def assembleNode (tree : Tree) (kind : NodeKind) (position : Option Position)
    (givenKids : List (Role × Occupants Draft)) (given : GivenAttributes) :
    Except DocumentFault Draft := do
  if kind == .typeRef && given.type.isNone then
    .error (.namelessType position)
  else
    let given ← settleLiteral kind given
    match shapeOf? kind given, kidsOf? kind givenKids with
    | some shape, some kids => do
      let shape ← castType tree shape kids
      .ok (.fresh shape position kids)
    | _, _ => .error (.malformedNode kind.word position)

mutual

def Json.depth : Json → Nat
  | .list items => Json.itemsDepth items + 1
  | .record fields => Json.fieldsDepth fields + 1
  | _ => 1

def Json.itemsDepth : List Json → Nat
  | [] => 0
  | value :: rest => max value.depth (Json.itemsDepth rest)

def Json.fieldsDepth : List (String × Json) → Nat
  | [] => 0
  | (_, value) :: rest => max value.depth (Json.fieldsDepth rest)

end

namespace NodeReader

def readRole (readChild : Json → Except DocumentFault Draft) (fields : List (String × Json))
    (role : Role) : Except DocumentFault (Role × Occupants Draft) :=
  match Json.lookup role.word fields with
  | none => .ok (role, .empty)
  | some (.list items) =>
    match items.mapM readChild with
    | .ok drafts => .ok (role, .many drafts)
    | .error fault => .error fault
  | some .null => .ok (role, .empty)
  | some value =>
    match readChild value with
    | .ok draft => .ok (role, .one draft)
    | .error fault => .error fault

def readUnknown (readChild : Json → Except DocumentFault Draft) (kind : Json)
    (position : Option Position) (fields : List (String × Json)) : Except DocumentFault Draft :=
  match ((Json.lookup "parts" fields).getD (.list [])).items? with
  | none => .error .mistyped
  | some parts =>
    match parts.mapM readChild with
    | .error fault => .error fault
    | .ok drafts =>
      let text := (Json.lookup "text" fields).getD (.text "")
      .ok (.fresh (.unknown (Name.ofJson kind) (Name.ofJson text) none) position
        [(.parts, .many drafts)])

def readWithin (reader : NodeReader) : Nat → Json → Except DocumentFault Draft
  | 0, value => .error (.notANode value)
  | depth + 1, value =>
    match reader.graft value with
    | .error fault => .error fault
    | .ok (some draft) => .ok draft
    | .ok none =>
      match value with
      | .record fields =>
        match Json.lookup "kind" fields with
        | none => .error (.notANode value)
        | some kind => do
          let position ← readPosition ((Json.lookup "pos" fields).getD .null)
          match kind with
          | .text word =>
            match NodeKind.ofWord? word with
            | some known => do
              let kids ← known.layout.mapM fun entry =>
                readRole (reader.readWithin depth) fields entry.1
              let given ← reader.readAttributes position fields known.attributeNames
              assembleNode reader.tree known position kids given
            | none => readUnknown (reader.readWithin depth) kind position fields
          | _ =>
            if kind.isKey then readUnknown (reader.readWithin depth) kind position fields
            else .error .mistyped
      | _ => .error (.notANode value)

def read (reader : NodeReader) (value : Json) : Except DocumentFault Draft :=
  reader.readWithin (value.depth + 1) value

end NodeReader

end UnitySharp
