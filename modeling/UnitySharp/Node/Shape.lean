import UnitySharp.Symbol

/-!
# Shapes of nodes

A node of a module's tree has a shape: its kind together with the attributes of that kind.  Its
children are kept apart from the shape, each under the role it plays.  The layout of a kind lists
the roles in source order and says which of them hold a list.
-/

namespace UnitySharp

inductive NodeKind where
  | attribute
  | typeRef
  | module
  | typeDef
  | enumMember
  | field
  | parameter
  | method
  | constructor
  | block
  | expressionStatement
  | declaration
  | ifStatement
  | whileLoop
  | forEach
  | goto
  | label
  | returnStatement
  | breakStatement
  | continueStatement
  | yieldStatement
  | switchSection
  | switchStatement
  | binary
  | unary
  | invocation
  | reference
  | memberAccess
  | literal
  | cast
  | tryCast
  | typeOf
  | indexer
  | conditional
  | selfRef
  | superRef
  | genericRef
  | closure
  | unknown
deriving DecidableEq, Inhabited, Repr

inductive Role where
  | arguments
  | members
  | attributes
  | bases
  | initializer
  | typeRef
  | parameters
  | returnType
  | body
  | statements
  | expression
  | condition
  | thenBranch
  | elseBranch
  | declaration
  | iterator
  | labels
  | subject
  | sections
  | left
  | right
  | operand
  | target
  | indices
  | yes
  | no
  | parts
deriving DecidableEq, Inhabited, Repr

namespace Role

def word : Role → String
  | .arguments => "args"
  | .members => "members"
  | .attributes => "attributes"
  | .bases => "bases"
  | .initializer => "initializer"
  | .typeRef => "type_ref"
  | .parameters => "params"
  | .returnType => "return_type"
  | .body => "body"
  | .statements => "statements"
  | .expression => "expr"
  | .condition => "cond"
  | .thenBranch => "then"
  | .elseBranch => "otherwise"
  | .declaration => "declaration"
  | .iterator => "iterator"
  | .labels => "labels"
  | .subject => "subject"
  | .sections => "sections"
  | .left => "left"
  | .right => "right"
  | .operand => "operand"
  | .target => "target"
  | .indices => "indices"
  | .yes => "yes"
  | .no => "no"
  | .parts => "parts"

end Role

/-- Whether a role holds at most one child or a list of them. -/
inductive Plurality where
  | single
  | list
deriving DecidableEq, Repr

namespace NodeKind

def word : NodeKind → String
  | .attribute => "Attribute"
  | .typeRef => "TypeRef"
  | .module => "Module"
  | .typeDef => "TypeDef"
  | .enumMember => "EnumMember"
  | .field => "Field"
  | .parameter => "Parameter"
  | .method => "Method"
  | .constructor => "Constructor"
  | .block => "Block"
  | .expressionStatement => "ExpressionStatement"
  | .declaration => "Declaration"
  | .ifStatement => "If"
  | .whileLoop => "While"
  | .forEach => "ForEach"
  | .goto => "Goto"
  | .label => "Label"
  | .returnStatement => "Return"
  | .breakStatement => "Break"
  | .continueStatement => "Continue"
  | .yieldStatement => "Yield"
  | .switchSection => "SwitchSection"
  | .switchStatement => "Switch"
  | .binary => "BinaryOp"
  | .unary => "UnaryOp"
  | .invocation => "Invocation"
  | .reference => "Reference"
  | .memberAccess => "MemberAccess"
  | .literal => "Literal"
  | .cast => "Cast"
  | .tryCast => "TryCast"
  | .typeOf => "TypeOf"
  | .indexer => "Indexer"
  | .conditional => "Conditional"
  | .selfRef => "SelfRef"
  | .superRef => "SuperRef"
  | .genericRef => "GenericRef"
  | .closure => "Closure"
  | .unknown => "Unknown"

def known : List NodeKind :=
  [.attribute, .typeRef, .module, .typeDef, .enumMember, .field, .parameter, .method, .constructor,
    .block, .expressionStatement, .declaration, .ifStatement, .whileLoop, .forEach, .goto, .label,
    .returnStatement, .breakStatement, .continueStatement, .yieldStatement, .switchSection,
    .switchStatement, .binary, .unary, .invocation, .reference, .memberAccess, .literal, .cast,
    .tryCast, .typeOf, .indexer, .conditional, .selfRef, .superRef, .genericRef, .closure]

def ofWord? (word : String) : Option NodeKind :=
  known.find? fun kind => kind.word == word

def layout : NodeKind → List (Role × Plurality)
  | .attribute => [(.arguments, .list)]
  | .module => [(.members, .list)]
  | .typeDef => [(.attributes, .list), (.bases, .list), (.members, .list)]
  | .enumMember => [(.initializer, .single)]
  | .field => [(.attributes, .list), (.typeRef, .single), (.initializer, .single)]
  | .parameter => [(.typeRef, .single)]
  | .method =>
    [(.attributes, .list), (.parameters, .list), (.returnType, .single), (.body, .single)]
  | .constructor =>
    [(.attributes, .list), (.parameters, .list), (.returnType, .single), (.body, .single)]
  | .block => [(.statements, .list)]
  | .expressionStatement => [(.expression, .single)]
  | .declaration => [(.typeRef, .single), (.initializer, .single)]
  | .ifStatement => [(.condition, .single), (.thenBranch, .single), (.elseBranch, .single)]
  | .whileLoop => [(.condition, .single), (.body, .single)]
  | .forEach => [(.declaration, .single), (.iterator, .single), (.body, .single)]
  | .returnStatement => [(.expression, .single)]
  | .yieldStatement => [(.expression, .single)]
  | .switchSection => [(.labels, .list), (.body, .list)]
  | .switchStatement => [(.subject, .single), (.sections, .list)]
  | .binary => [(.left, .single), (.right, .single)]
  | .unary => [(.operand, .single)]
  | .invocation => [(.target, .single), (.arguments, .list)]
  | .memberAccess => [(.target, .single)]
  | .cast => [(.typeRef, .single), (.operand, .single)]
  | .tryCast => [(.operand, .single), (.typeRef, .single)]
  | .typeOf => [(.typeRef, .single)]
  | .indexer => [(.target, .single), (.indices, .list)]
  | .conditional => [(.condition, .single), (.yes, .single), (.no, .single)]
  | .genericRef => [(.target, .single), (.arguments, .list)]
  | .closure => [(.parameters, .list), (.body, .single)]
  | .unknown => [(.parts, .list)]
  | .typeRef => []
  | .goto => []
  | .label => []
  | .breakStatement => []
  | .continueStatement => []
  | .reference => []
  | .literal => []
  | .selfRef => []
  | .superRef => []

def isMethod : NodeKind → Bool
  | .method | .constructor => true
  | _ => false

def isStatement : NodeKind → Bool
  | .block | .expressionStatement | .declaration | .ifStatement | .whileLoop | .forEach | .goto
  | .label | .returnStatement | .breakStatement | .continueStatement | .yieldStatement
  | .switchStatement => true
  | _ => false

/-- Expressions, among them whatever the reader could not place. -/
def isExpression : NodeKind → Bool
  | .binary | .unary | .invocation | .reference | .memberAccess | .literal | .cast | .tryCast
  | .typeOf | .indexer | .conditional | .selfRef | .superRef | .genericRef | .closure
  | .unknown => true
  | _ => false

/-- Statements after which control does not go on to the next one. -/
def isJump : NodeKind → Bool
  | .returnStatement | .breakStatement | .continueStatement | .goto => true
  | _ => false

end NodeKind

structure MethodHead where
  name : Name
  modifiers : List Name
  symbol : Option Symbol
  close : Option Position
deriving Inhabited, Repr

inductive Shape where
  | attribute (name : Name)
  | typeRef (type : Option Ty)
  | module (path : Name) (imports : List Name) (close : Option Position)
  | typeDef (name : Name) (kind : TypeKind) (modifiers : List Name) (type : Option Ty)
    (close : Option Position)
  | enumMember (name : Name)
  | field (name : Name) (modifiers : List Name) (symbol : Option Symbol)
  | parameter (name : Name) (byRef : Json) (symbol : Option Symbol)
  | method (head : MethodHead)
  | constructor (head : MethodHead)
  | block
  | expressionStatement
  | declaration (name : Name) (symbol : Option Symbol)
  | ifStatement
  | whileLoop
  | forEach
  | goto (label : Name)
  | label (name : Name)
  | returnStatement
  | breakStatement
  | continueStatement
  | yieldStatement
  | switchSection
  | switchStatement
  | binary (op : Name) (type : Option Ty)
  | unary (op : Name) (postfixed : Json) (type : Option Ty)
  | invocation (type : Option Ty)
  | reference (name : Name) (symbol : Option Symbol) (type : Option Ty)
  | memberAccess (name : Name) (symbol : Option Symbol) (type : Option Ty)
  | literal (value : Json) (type : Option Ty)
  | cast (type : Option Ty)
  | tryCast (type : Option Ty)
  | typeOf (type : Option Ty)
  | indexer (type : Option Ty)
  | conditional (type : Option Ty)
  | selfRef (type : Option Ty)
  | superRef (type : Option Ty)
  | genericRef (type : Option Ty)
  | closure (type : Option Ty)
  | unknown (kind : Name) (text : Name) (type : Option Ty)
deriving Inhabited, Repr

namespace Shape

def kind : Shape → NodeKind
  | .attribute _ => .attribute
  | .typeRef _ => .typeRef
  | .module _ _ _ => .module
  | .typeDef _ _ _ _ _ => .typeDef
  | .enumMember _ => .enumMember
  | .field _ _ _ => .field
  | .parameter _ _ _ => .parameter
  | .method _ => .method
  | .constructor _ => .constructor
  | .block => .block
  | .expressionStatement => .expressionStatement
  | .declaration _ _ => .declaration
  | .ifStatement => .ifStatement
  | .whileLoop => .whileLoop
  | .forEach => .forEach
  | .goto _ => .goto
  | .label _ => .label
  | .returnStatement => .returnStatement
  | .breakStatement => .breakStatement
  | .continueStatement => .continueStatement
  | .yieldStatement => .yieldStatement
  | .switchSection => .switchSection
  | .switchStatement => .switchStatement
  | .binary _ _ => .binary
  | .unary _ _ _ => .unary
  | .invocation _ => .invocation
  | .reference _ _ _ => .reference
  | .memberAccess _ _ _ => .memberAccess
  | .literal _ _ => .literal
  | .cast _ => .cast
  | .tryCast _ => .tryCast
  | .typeOf _ => .typeOf
  | .indexer _ => .indexer
  | .conditional _ => .conditional
  | .selfRef _ => .selfRef
  | .superRef _ => .superRef
  | .genericRef _ => .genericRef
  | .closure _ => .closure
  | .unknown _ _ _ => .unknown

def type? : Shape → Option (Option Ty)
  | .typeRef type => some type
  | .typeDef _ _ _ type _ => some type
  | .binary _ type => some type
  | .unary _ _ type => some type
  | .invocation type => some type
  | .reference _ _ type => some type
  | .memberAccess _ _ type => some type
  | .literal _ type => some type
  | .cast type => some type
  | .tryCast type => some type
  | .typeOf type => some type
  | .indexer type => some type
  | .conditional type => some type
  | .selfRef type => some type
  | .superRef type => some type
  | .genericRef type => some type
  | .closure type => some type
  | .unknown _ _ type => some type
  | _ => none

/-- The shape with another type, where a shape has a type that may change. -/
def withType (shape : Shape) (type : Option Ty) : Shape :=
  match shape with
  | .binary op _ => .binary op type
  | .unary op postfixed _ => .unary op postfixed type
  | .invocation _ => .invocation type
  | .reference name symbol _ => .reference name symbol type
  | .memberAccess name symbol _ => .memberAccess name symbol type
  | .literal value _ => .literal value type
  | .cast _ => .cast type
  | .tryCast _ => .tryCast type
  | .typeOf _ => .typeOf type
  | .indexer _ => .indexer type
  | .conditional _ => .conditional type
  | .selfRef _ => .selfRef type
  | .superRef _ => .superRef type
  | .genericRef _ => .genericRef type
  | .closure _ => .closure type
  | .typeRef _ => .typeRef type
  | .typeDef name kind modifiers _ close => .typeDef name kind modifiers type close
  | .unknown kind text _ => .unknown kind text type
  | other => other

def symbol? : Shape → Option Symbol
  | .field _ _ symbol => symbol
  | .parameter _ _ symbol => symbol
  | .method head => head.symbol
  | .constructor head => head.symbol
  | .declaration _ symbol => symbol
  | .reference _ symbol _ => symbol
  | .memberAccess _ symbol _ => symbol
  | _ => none

def name? : Shape → Option Name
  | .attribute name => some name
  | .typeDef name _ _ _ _ => some name
  | .enumMember name => some name
  | .field name _ _ => some name
  | .parameter name _ _ => some name
  | .method head => some head.name
  | .constructor head => some head.name
  | .declaration name _ => some name
  | .label name => some name
  | .reference name _ _ => some name
  | .memberAccess name _ _ => some name
  | _ => none

def mapName (f : Name → Name) : Shape → Shape
  | .attribute name => .attribute (f name)
  | .typeDef name kind modifiers type close => .typeDef (f name) kind modifiers type close
  | .enumMember name => .enumMember (f name)
  | .field name modifiers symbol => .field (f name) modifiers symbol
  | .parameter name byRef symbol => .parameter (f name) byRef symbol
  | .method head => .method { head with name := f head.name }
  | .constructor head => .constructor { head with name := f head.name }
  | .declaration name symbol => .declaration (f name) symbol
  | .label name => .label (f name)
  | .reference name symbol type => .reference (f name) symbol type
  | .memberAccess name symbol type => .memberAccess (f name) symbol type
  | other => other

/-- An operator's word between two operands is `=`. -/
def isAssignment : Shape → Bool
  | .binary op _ => op.is "="
  | _ => false

end Shape

end UnitySharp
