import UnitySharp.Name

/-!
# Static types

The types the analyzer computed, as far as the passes need to know them.  A type is simple, an
instance of a generic one, or an array.  Types are compared by their spelling, so two instances of a
generic type with equally spelled arguments are the same type.
-/

namespace UnitySharp

/-- What sort of thing a type is.  A delegate is anything that can be called. -/
inductive TypeKind where
  | primitive
  | classType
  | structType
  | interfaceType
  | enumType
  | arrayType
  | delegate
  | void
  | null
deriving DecidableEq, Inhabited, Repr

namespace TypeKind

def word : TypeKind → String
  | .primitive => "primitive"
  | .classType => "class"
  | .structType => "struct"
  | .interfaceType => "interface"
  | .enumType => "enum"
  | .arrayType => "array"
  | .delegate => "delegate"
  | .void => "void"
  | .null => "null"

def all : List TypeKind :=
  [.primitive, .classType, .structType, .interfaceType, .enumType, .arrayType, .delegate, .void,
    .null]

def ofWord? (word : String) : Option TypeKind :=
  all.find? fun kind => kind.word == word

end TypeKind

/-- A static type.  The members of an enumeration keep the order of their declaration. -/
inductive Ty where
  | simple (name : String) (kind : TypeKind) (members : List (Name × Json))
  | generic (name : String) (kind : TypeKind) (arguments : List Ty)
  | array (element : Ty) (rank : Nat)
deriving Inhabited, Repr

namespace Ty

def name : Ty → String
  | .simple name _ _ => name
  | .generic name _ _ => name
  | .array _ _ => "array"

def kind : Ty → TypeKind
  | .simple _ kind _ => kind
  | .generic _ kind _ => kind
  | .array _ _ => .arrayType

def rank : Ty → Nat
  | .simple _ _ _ => 0
  | .generic _ _ _ => 0
  | .array _ rank => rank

def members : Ty → List (Name × Json)
  | .simple _ _ members => members
  | .generic _ _ _ => []
  | .array _ _ => []

def brackets (rank : Nat) : String :=
  "[" ++ String.ofList (List.replicate (rank - 1) ',') ++ "]"

mutual

/-- How a type is spelled.  A type declared as an array has no element to name. -/
def spelling : Ty → String
  | .simple name kind _ => if kind = .arrayType then "None[]" else name
  | .generic name kind arguments =>
    if kind = .arrayType then "None[]" else name ++ "<" ++ spellings arguments ++ ">"
  | .array element rank => spelling element ++ brackets rank

def spellings : List Ty → String
  | [] => ""
  | [type] => spelling type
  | type :: rest => spelling type ++ ", " ++ spellings rest

end

instance : BEq Ty := ⟨fun a b => a.spelling == b.spelling⟩

def isPrimitive (type : Ty) : Bool :=
  type.kind == .primitive

def integralNames : List String :=
  ["sbyte", "byte", "short", "ushort", "int", "uint", "long", "ulong"]

def floatingNames : List String :=
  ["float", "double", "decimal"]

def isIntegral (type : Ty) : Bool :=
  integralNames.contains type.name && type.isPrimitive

def isFloating (type : Ty) : Bool :=
  floatingNames.contains type.name && type.isPrimitive

def isNumeric (type : Ty) : Bool :=
  (integralNames ++ floatingNames).contains type.name && type.isPrimitive

def isBoolean (type : Ty) : Bool :=
  type.name == "bool" && type.isPrimitive

def isEnum (type : Ty) : Bool :=
  type.kind == .enumType

def isArray (type : Ty) : Bool :=
  type.kind == .arrayType

def isCallable (type : Ty) : Bool :=
  type.kind == .delegate

def isNull (type : Ty) : Bool :=
  type.kind == .null

def isVoid (type : Ty) : Bool :=
  type.kind == .void

def isObject (type : Ty) : Bool :=
  type.name == "object" && type.kind == .classType

def isReference (type : Ty) : Bool :=
  [TypeKind.classType, .interfaceType, .arrayType, .delegate].contains type.kind

def isValueType (type : Ty) : Bool :=
  [TypeKind.primitive, .structType, .enumType].contains type.kind

def memberOf? (type : Ty) (value : Json) : Option Name :=
  (type.members.find? fun entry => entry.2.sameValue value).map (·.1)

/-- The member of an enumeration whose value is zero; a member without a name does not count. -/
def zeroMember? (type : Ty) : Option Name :=
  (type.memberOf? (.int 0)).filter fun member => !member.toJson.isNull

end Ty

end UnitySharp
