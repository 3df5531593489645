import UnitySharp.Type.WellKnown

/-!
# Types, literals and names in C#

How the pieces of an expression are spelled.
-/

namespace UnitySharp

/-! ## Quoted text

The texts of string and character literals: a mark at each end, with the mark itself, the backslash
and four control characters escaped in between.
-/

def quotedChar (mark c : Char) : List Char :=
  if c = '\\' then ['\\', '\\']
  else if c = '\n' then ['\\', 'n']
  else if c = '\r' then ['\\', 'r']
  else if c = '\t' then ['\\', 't']
  else if c = '\x00' then ['\\', '0']
  else if c = mark then ['\\', c]
  else [c]

def quotedChars (mark : Char) (cs : List Char) : List Char :=
  mark :: (cs.flatMap (quotedChar mark) ++ [mark])

def quoted (mark : Char) (s : String) : String :=
  String.ofList (quotedChars mark s.toList)

/-! ## Types, literals and names in C#

How the pieces of an expression are spelled.  A type that had to take another name is spelled with
that name wherever it occurs.
-/

def renamedTo (renamed : List (String × String)) (name : String) : String :=
  match renamed with
  | [] => name
  | (old, new) :: rest => if old = name then new else renamedTo rest name

mutual

/-- A type in C#.  A type declared as an array has unknown elements. -/
def Ty.code (renamed : List (String × String)) : Ty → String
  | .simple name kind _ => if kind = .arrayType then "object[]" else renamedTo renamed name
  | .generic name kind arguments =>
    if kind = .arrayType then "object[]"
    else renamedTo renamed name ++ "<" ++ Ty.codes renamed arguments ++ ">"
  | .array element rank => Ty.code renamed element ++ Ty.brackets rank

def Ty.codes (renamed : List (String × String)) : List Ty → String
  | [] => ""
  | [type] => Ty.code renamed type
  | type :: rest => Ty.code renamed type ++ ", " ++ Ty.codes renamed rest

end

/-- A type in C#; one that is not known is an object. -/
def typeCode (renamed : List (String × String)) : Option Ty → String
  | none => "object"
  | some type => type.code renamed

inductive LiteralKind where
  | null
  | bool
  | int
  | float
  | char
  | string
deriving DecidableEq, Repr

def LiteralKind.word : LiteralKind → String
  | .null => "null"
  | .bool => "bool"
  | .int => "int"
  | .float => "float"
  | .char => "char"
  | .string => "string"

/-- The kind of a literal goes by its value; a text is a character if it is typed as one. -/
def literalKind (value : Json) (type : Option Ty) : LiteralKind :=
  match value with
  | .null => .null
  | .bool _ => .bool
  | .int _ => .int
  | .double _ => .float
  | _ => if type == some Ty.char then .char else .string

def quotedPart? (mark : Char) : Json → Option (List Char)
  | .text s =>
    match s.toList with
    | [c] => some (quotedChar mark c)
    | cs => some cs
  | _ => none

def quotedValue? (mark : Char) (value : Json) : Option String :=
  match value with
  | .text s => some (quoted mark s)
  | other =>
    match other.items? with
    | none => none
    | some items =>
      (items.mapM (quotedPart? mark)).map fun parts =>
        String.ofList (mark :: (parts.flatten ++ [mark]))

def floatText (x : Double) (type : Option Ty) : String :=
  let text := x.text
  if type == some Ty.decimal then text ++ "m"
  else if type == some Ty.double then
    if text.toList.contains '.' || text.toList.contains 'e' then text else text ++ ".0"
  else text ++ "f"

/-- The text of a literal; a value that is neither a scalar nor made of text has none. -/
def literalText? (value : Json) (type : Option Ty) : Option String :=
  match value with
  | .null => some "null"
  | .bool b => some (if b then "true" else "false")
  | .int i => some (toString i ++ if type == some Ty.long then "L" else "")
  | .double x => some (floatText x type)
  | other =>
    match literalKind other type with
    | .char => quotedValue? '\x27' other
    | _ => quotedValue? '"' other

/-- An attribute is named without the word `Attribute` at its end, unless that is all of its
name. -/
def attributeText (name : String) : String :=
  let cs := name.toList
  let ending := "Attribute".toList
  if ending.isSuffixOf cs && ending.length < cs.length then
    String.ofList (cs.take (cs.length - ending.length))
  else name

def isIdentifierStart (c : Char) : Bool :=
  ('a' ≤ c && c ≤ 'z') || ('A' ≤ c && c ≤ 'Z') || c == '_'

def isIdentifierPart (c : Char) : Bool :=
  isIdentifierStart c || ('0' ≤ c && c ≤ '9')

def isBareIdentifier : List Char → Bool
  | [] => false
  | c :: rest => isIdentifierStart c && rest.all isIdentifierPart

def isIdentifier (s : String) : Bool :=
  match s.toList with
  | '@' :: rest => isBareIdentifier rest
  | cs => isBareIdentifier cs

end UnitySharp
