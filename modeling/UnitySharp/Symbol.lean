import UnitySharp.Type.WellKnown

/-!
# Symbols

What the analyzer bound a name to.  A symbol has an identity of its own: two symbols may agree in
kind, name and type and still be different things, so symbols are told apart by where they come
from.
-/

namespace UnitySharp

inductive BindingKind where
  | localVariable
  | parameter
  | field
  | property
  | method
  | constructor
  | type
  | builtin
  | unbound
deriving DecidableEq, Inhabited, Repr

namespace BindingKind

def word : BindingKind → String
  | .localVariable => "Local"
  | .parameter => "Parameter"
  | .field => "Field"
  | .property => "Property"
  | .method => "Method"
  | .constructor => "Constructor"
  | .type => "Type"
  | .builtin => "Builtin"
  | .unbound => "None"

def all : List BindingKind :=
  [.localVariable, .parameter, .field, .property, .method, .constructor, .type, .builtin, .unbound]

def ofWord? (word : String) : Option BindingKind :=
  all.find? fun kind => kind.word == word

end BindingKind

/-- Where a symbol comes from: a document lists it under a key, it stands for a type wherever that
type is named, or a pass coined it.  Each reading of a document gives symbols of its own. -/
inductive SymbolOrigin where
  | listed (reading : Nat) (key : String)
  | typeName (spelling : String)
  | coined (serial : Nat)
deriving DecidableEq, Inhabited, Repr

structure ParameterInfo where
  type : Option Ty
  byRef : Bool
deriving Inhabited, Repr

/-- What a name is bound to.  For methods and constructors `type` is the return type, otherwise the
type of the thing named.  A synthetic symbol was made up by the front end and is declared
nowhere. -/
structure Symbol where
  origin : SymbolOrigin
  kind : BindingKind
  name : Name
  type : Option Ty
  isStatic : Bool
  isSynthetic : Bool
  parameters : List ParameterInfo
  declaring : Option Ty
deriving Inhabited, Repr

namespace Symbol

def isSame (a b : Symbol) : Bool :=
  a.origin == b.origin

/-- The short form of a symbol: its name and kind between braces. -/
def label (symbol : Symbol) : String :=
  "\x7b" ++ symbol.name.plain ++ ":" ++ symbol.kind.word ++ "\x7d"

def isInvocable (symbol : Symbol) : Bool :=
  [BindingKind.method, .constructor, .property].contains symbol.kind

def signatureType (symbol : Symbol) : Ty :=
  let arguments := symbol.parameters.map fun parameter => parameter.type.getD Ty.object
  let returned := symbol.type.filter fun type => !type.isVoid
  match returned with
  | some type => .generic Ty.func.name Ty.func.kind (arguments ++ [type])
  | none =>
    if arguments.isEmpty then Ty.action
    else .generic Ty.action.name Ty.action.kind arguments

def ofType (type : Ty) : Symbol :=
  { origin := .typeName type.spelling
    kind := .type
    name := .text type.name
    type := some type
    isStatic := false
    isSynthetic := false
    parameters := []
    declaring := none }

end Symbol

end UnitySharp
