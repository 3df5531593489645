import UnitySharp.Tree.Draft

/-!
# Composing drafts

The small new subtrees that passes write.  They have no place in the source unless they are given
one.
-/

namespace UnitySharp

def Tree.keptIn (t : Tree) (id : NodeId) (role : Role) : Occupants Draft :=
  ((t.node id).kid role).map Draft.kept

namespace Draft

def ofSymbol (symbol : Symbol) (position : Option Position) : Draft :=
  .fresh (.reference symbol.name (some symbol) symbol.type) position []

def typeRef (type : Ty) : Draft :=
  .fresh (.typeRef (some type)) none []

def typeName (type : Ty) (position : Option Position) : Draft :=
  .fresh (.reference type.name (some (Symbol.ofType type)) (some type)) position []

def cast (type : Ty) (operand : Draft) : Draft :=
  .fresh (.cast (some type)) none [(.typeRef, .one (typeRef type)), (.operand, .one operand)]

def binary (op : String) (left right : Draft) (type : Option Ty) (position : Option Position) :
    Draft :=
  .fresh (.binary op type) position [(.left, .one left), (.right, .one right)]

def unary (op : String) (operand : Draft) (type : Option Ty) (position : Option Position) : Draft :=
  .fresh (.unary op (.bool false) type) position [(.operand, .one operand)]

def comparison (op : String) (left right : Draft) (position : Option Position) : Draft :=
  binary op left right (some Ty.bool) position

def memberAccess (target : Occupants Draft) (name : Name) (symbol : Option Symbol)
    (type : Option Ty) (position : Option Position) : Draft :=
  .fresh (.memberAccess name symbol type) position [(.target, target)]

def enumMember (type : Ty) (name : Name) (position : Option Position) : Draft :=
  memberAccess (.one (typeName type none)) name none (some type) position

def literal (value : Json) (type : Ty) : Draft :=
  .fresh (.literal value (some type)) none []

def invocation (target : Draft) (arguments : List Draft) (type : Option Ty)
    (position : Option Position) : Draft :=
  .fresh (.invocation type) position [(.target, .one target), (.arguments, .many arguments)]

def indexer (target : Occupants Draft) (indices : List Draft) (type : Option Ty)
    (position : Option Position) : Draft :=
  .fresh (.indexer type) position [(.target, target), (.indices, .many indices)]

def typeOf (named : Ty) (type : Option Ty) (position : Option Position) : Draft :=
  .fresh (.typeOf type) position [(.typeRef, .one (typeRef named))]

def block (statements : List Draft) (position : Option Position) : Draft :=
  .fresh .block position [(.statements, .many statements)]

def expressionStatement (expression : Draft) : Draft :=
  .fresh .expressionStatement none [(.expression, .one expression)]

def declaration (symbol : Symbol) (type : Option Ty) (initializer : Option Draft)
    (position : Option Position) : Draft :=
  .fresh (.declaration symbol.name (some symbol)) position
    [(.typeRef, .ofOption (type.map typeRef)), (.initializer, .ofOption initializer)]

/-- What a value of a type is compared with to test it for truth, where there is something sensible:
zero for numbers, the zero member or a converted zero for enumerations, null for references. -/
def zeroFor (type : Ty) : Option Draft :=
  if type.isIntegral || type.name == "decimal" then some (literal (.int 0) type)
  else if type.isFloating then some (literal (.double (Double.ofInt 0)) type)
  else if type.isEnum then
    match type.zeroMember? with
    | some member => some (enumMember type member none)
    | none => some (cast type (literal (.int 0) Ty.int))
  else if type.isReference then some (literal .null Ty.null)
  else none

end Draft

end UnitySharp
