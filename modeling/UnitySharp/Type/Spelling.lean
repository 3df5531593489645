import UnitySharp.Type.WellKnown

/-!
# Reading the spelling of a type

A spelling is cut into names and the marks `<`, `>`, `[`, `]` and `,`, with blanks allowed before
each, and then read by the grammar

    type ::= name [ '<' type (',' type)* '>' ] ( '[' ','* ']' )*

Every name has to be well known or declared by the document.
-/

namespace UnitySharp

inductive SpellingToken where
  | name (s : String)
  | less
  | greater
  | openBracket
  | closeBracket
  | comma
deriving DecidableEq, Repr

inductive SpellingFault where
  | nonsense
  | trailing
  | nameExpected
  | unknown (name : String)
  | openArguments
  | openBrackets
deriving DecidableEq, Repr

def startsTypeName (c : Char) : Bool :=
  isAsciiLetter c || c == '_' || c == '$'

def continuesTypeName (c : Char) : Bool :=
  isWordChar c || c == '$' || c == '.'

def spellingMark? : Char → Option SpellingToken
  | '<' => some .less
  | '>' => some .greater
  | '[' => some .openBracket
  | ']' => some .closeBracket
  | ',' => some .comma
  | _ => none

def nextSpellingToken? (cs : List Char) : Option (SpellingToken × List Char) :=
  match trimmedLeft cs with
  | [] => none
  | c :: rest =>
    if startsTypeName c then
      some (.name (String.ofList (c :: rest.takeWhile continuesTypeName)),
        rest.dropWhile continuesTypeName)
    else (spellingMark? c).map fun token => (token, rest)

/-- All tokens of a spelling that has no blanks at its end, if it consists of tokens.  The first
argument bounds their number. -/
def spellingTokens? : Nat → List Char → Option (List SpellingToken)
  | _, [] => some []
  | 0, _ :: _ => none
  | bound + 1, c :: rest =>
    match nextSpellingToken? (c :: rest) with
    | none => none
    | some (token, after) => (spellingTokens? bound after).map (token :: ·)

/-- The types a document may name: its own and the well-known ones. -/
structure TypeTable where
  declared : List (String × Ty)

namespace TypeTable

def entry? (name : String) : List (String × Ty) → Option Ty
  | [] => none
  | (other, type) :: rest => if other = name then some type else entry? name rest

def find? (table : TypeTable) (name : String) : Option Ty :=
  match entry? name table.declared with
  | some type => some type
  | none => entry? name Ty.wellKnownNames

/-- The brackets after a type, read as arrays of it.  The first argument bounds their number. -/
def readArrays : Nat → Ty → List SpellingToken → Except SpellingFault (Ty × List SpellingToken)
  | bound + 1, type, .openBracket :: rest =>
    let commas := rest.takeWhile (· == .comma)
    match rest.dropWhile (· == .comma) with
    | .closeBracket :: after => readArrays bound (.array type (commas.length + 1)) after
    | _ => .error .openBrackets
  | _, type, rest => .ok (type, rest)

mutual

/-- One type at the front of the tokens, and the tokens after it. -/
def readType (table : TypeTable) :
    Nat → List SpellingToken → Except SpellingFault (Ty × List SpellingToken)
  | 0, _ => .error .nameExpected
  | fuel + 1, .name name :: rest =>
    match table.find? name with
    | none => .error (.unknown name)
    | some base =>
      match rest with
      | .less :: arguments =>
        match readArguments table fuel [] arguments with
        | .error fault => .error fault
        | .ok (types, after) => readArrays after.length (.generic base.name base.kind types) after
      | _ => readArrays rest.length base rest
  | _ + 1, _ => .error .nameExpected

/-- The arguments of a generic type up to its closing mark; `read` holds the earlier ones in
reverse. -/
def readArguments (table : TypeTable) :
    Nat → List Ty → List SpellingToken → Except SpellingFault (List Ty × List SpellingToken)
  | 0, _, _ => .error .nameExpected
  | fuel + 1, read, tokens =>
    match readType table fuel tokens with
    | .error fault => .error fault
    | .ok (type, .comma :: rest) => readArguments table fuel (type :: read) rest
    | .ok (type, .greater :: rest) => .ok ((type :: read).reverse, rest)
    | .ok _ => .error .openArguments

end

def read (table : TypeTable) (spelling : String) : Except SpellingFault Ty :=
  let cs := trimmed spelling.toList
  match spellingTokens? cs.length cs with
  | none => .error .nonsense
  | some tokens =>
    match readType table (2 * tokens.length + 2) tokens with
    | .error fault => .error fault
    | .ok (type, []) => .ok type
    | .ok (_, _ :: _) => .error .trailing

end TypeTable

end UnitySharp
