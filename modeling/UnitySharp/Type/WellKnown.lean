import UnitySharp.Type.Basic

/-!
# The types every document may name

The built-in types of C#, the few framework types the passes deal with, and the longer or older
spellings that stand for them in documents.
-/

namespace UnitySharp.Ty

def plain (name : String) (kind : TypeKind) : Ty :=
  .simple name kind []

def sbyte : Ty := plain "sbyte" .primitive

def byte : Ty := plain "byte" .primitive

def short : Ty := plain "short" .primitive

def ushort : Ty := plain "ushort" .primitive

def int : Ty := plain "int" .primitive

def uint : Ty := plain "uint" .primitive

def long : Ty := plain "long" .primitive

def ulong : Ty := plain "ulong" .primitive

def float : Ty := plain "float" .primitive

def double : Ty := plain "double" .primitive

def decimal : Ty := plain "decimal" .primitive

def bool : Ty := plain "bool" .primitive

def char : Ty := plain "char" .primitive

def string : Ty := plain "string" .classType

def object : Ty := plain "object" .classType

def void : Ty := plain "void" .void

def null : Ty := plain "null" .null

def callable : Ty := plain "ICallable" .delegate

def delegate : Ty := plain "Delegate" .delegate

def func : Ty := plain "Func" .delegate

def action : Ty := plain "Action" .delegate

def enumerator : Ty := plain "IEnumerator" .interfaceType

def systemEnum : Ty := plain "System.Enum" .classType

def systemType : Ty := plain "System.Type" .classType

def wellKnown : List Ty :=
  [sbyte, byte, short, ushort, int, uint, long, ulong, float, double, decimal, bool, char, string,
    object, void, null, callable, delegate, func, action, enumerator, systemEnum, systemType]

def aliases : List (String × Ty) :=
  [("System.SByte", sbyte), ("System.Byte", byte), ("System.Int16", short),
    ("System.UInt16", ushort), ("System.Int32", int), ("System.UInt32", uint),
    ("System.Int64", long), ("System.UInt64", ulong), ("System.Single", float), ("single", float),
    ("System.Double", double), ("System.Decimal", decimal), ("System.Boolean", bool),
    ("boolean", bool), ("System.Char", char), ("System.String", string), ("String", string),
    ("System.Object", object), ("Object", object), ("System.Void", void),
    ("Boo.Lang.ICallable", callable), ("Function", callable), ("System.Delegate", delegate),
    ("System.Collections.IEnumerator", enumerator), ("System.Enum", systemEnum),
    ("Type", systemType)]

def wellKnownNames : List (String × Ty) :=
  wellKnown.map (fun type => (type.name, type)) ++ aliases

/-! ## Conversions between types

Which conversions C# makes on its own, and which have to be spelled out.  Only numbers and
enumerations are looked at: whether two classes are related is not known here.
-/

/-- The implicit numeric conversions: where a type widens without a cast. -/
def wideningTargets : String → List String
  | "sbyte" => ["short", "int", "long", "float", "double", "decimal"]
  | "byte" => ["short", "ushort", "int", "uint", "long", "ulong", "float", "double", "decimal"]
  | "short" => ["int", "long", "float", "double", "decimal"]
  | "ushort" => ["int", "uint", "long", "ulong", "float", "double", "decimal"]
  | "int" => ["long", "float", "double", "decimal"]
  | "uint" => ["long", "ulong", "float", "double", "decimal"]
  | "long" => ["float", "double", "decimal"]
  | "ulong" => ["float", "double", "decimal"]
  | "char" => ["ushort", "int", "uint", "long", "ulong", "float", "double", "decimal"]
  | "float" => ["double"]
  | _ => []

def widensTo (source target : Ty) : Bool :=
  (wideningTargets source.name).contains target.name && source.isPrimitive && target.isPrimitive

/-- Numbers and characters convert among each other. -/
def isNumberish (type : Ty) : Bool :=
  type.isNumeric || type == char

/-- Whether a value of the source type needs a cast where the target type is declared. -/
def needsCast (target source : Option Ty) : Bool :=
  match target, source with
  | some target, some source =>
    if target == source then false
    else if source.isObject then !target.isVoid
    else if target.isObject || source.isNull || target.isVoid then false
    else if target.isNumberish && source.isNumberish then !source.widensTo target
    else target.isNumberish != source.isNumberish
  | _, _ => false

def enumMismatch (a b : Option Ty) : Bool :=
  match a, b with
  | some a, some b => if a.isNull || b.isNull then false else a.isEnum != b.isEnum
  | _, _ => false

/-- Whether a method named where this type is declared must first become a delegate of its own
signature. -/
def wantsSignature (target : Option Ty) : Bool :=
  match target with
  | none => true
  | some type => type == callable || type == delegate || !type.isCallable

end UnitySharp.Ty
