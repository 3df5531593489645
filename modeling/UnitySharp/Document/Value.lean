import UnitySharp.Document.Fault
import UnitySharp.Symbol

/-!
# Positions, types and symbols of a document

The parts of a document that stand beside its tree.  A position is given as two numbers, in any form
that denotes an integer.  Types and symbols are listed under their names and keys, and the first bad
entry is the one reported.
-/

namespace UnitySharp

/-- Decimal digits with single underscores between them, as a number; the digits read so far come
first. -/
def digitsValue? : Nat → Bool → List Char → Option Nat
  | value, afterDigit, [] => if afterDigit then some value else none
  | value, afterDigit, c :: rest =>
    if c = '_' then
      if afterDigit then digitsValue? value false rest else none
    else
      match digitValue? c with
      | some digit => digitsValue? (value * 10 + digit) true rest
      | none => none

/-- The blanks that may stand around a number: all but the separators among the control
characters. -/
def isNumberBlank (c : Char) : Bool :=
  c == ' ' || (9 ≤ c.toNat && c.toNat ≤ 13) || (127 ≤ c.toNat && isBlank c)

def mostDigits : Nat := 4300

def integerOfText? (s : String) : Option Int :=
  let bare := ((s.toList.dropWhile isNumberBlank).reverse.dropWhile isNumberBlank).reverse
  if mostDigits < bare.countP isDigitChar then none
  else
    match bare with
    | '-' :: rest => (digitsValue? 0 false rest).map fun n => -(n : Int)
    | '+' :: rest => (digitsValue? 0 false rest).map fun n => (n : Int)
    | rest => (digitsValue? 0 false rest).map fun n => (n : Int)

def coordinate (whole value : Json) : Except DocumentFault Int :=
  match value with
  | .int i => .ok i
  | .bool b => .ok (if b then 1 else 0)
  | .text s =>
    match integerOfText? s with
    | some i => .ok i
    | none => .error (.badPosition whole)
  | .double x =>
    match x with
    | .infinite _ => .error .overflow
    | _ =>
      match x.truncate? with
      | some i => .ok i
      | none => .error (.badPosition whole)
  | _ => .error (.badPosition whole)

def readPosition (value : Json) : Except DocumentFault (Option Position) :=
  if value.isNull then .ok none
  else
    match value.items? with
    | some [line, column] =>
      match coordinate value line with
      | .error fault => .error fault
      | .ok line =>
        match coordinate value column with
        | .error fault => .error fault
        | .ok column => .ok (some ⟨line, column⟩)
    | _ => .error (.badPosition value)

/-- Gives a member of an enumeration its value: in its place if there is one of that name already,
at the end otherwise. -/
def setMember (name : Json) (value : Json) : List (Name × Json) → List (Name × Json)
  | [] => [(Name.ofJson name, value)]
  | (known, old) :: rest =>
    if known.toJson.sameKey name then (known, value) :: rest
    else (known, old) :: setMember name value rest

def addMember (members : List (Name × Json)) (pair : Json) :
    Except DocumentFault (List (Name × Json)) :=
  match pair.items? with
  | none => .error .mistyped
  | some [name, value] => if name.isKey then .ok (setMember name value members) else .error
      .mistyped
  | some _ => .error .notAPair

def readMembers (value : Json) : Except DocumentFault (List (Name × Json)) :=
  if !value.truthy then .ok []
  else
    match value with
    | .record fields => .ok (fields.map fun field => (.text field.1, field.2))
    | _ =>
      match value.items? with
      | none => .error .mistyped
      | some items => items.foldlM addMember []

def readTypeEntry (name : String) (info : Json) : Except DocumentFault (String × Ty) :=
  match info with
  | .record fields =>
    let kind := (Json.lookup "kind" fields).getD (.text "class")
    if !kind.isKey then .error .mistyped
    else
      match kind with
      | .text word =>
        match TypeKind.ofWord? word with
        | none => .error (.unknownTypeKind name kind)
        | some known =>
          match readMembers ((Json.lookup "members" fields).getD .null) with
          | .error fault => .error fault
          | .ok members => .ok (name, .simple name known members)
      | _ => .error (.unknownTypeKind name kind)
  | _ => .error .unfit

def readTypeTable (value : Json) : Except DocumentFault TypeTable :=
  match value with
  | .record fields =>
    match fields.mapM fun field => readTypeEntry field.1 field.2 with
    | .error fault => .error fault
    | .ok declared => .ok ⟨declared⟩
  | _ => .error .unfit

def readSpelling (table : TypeTable) (spelling : String) : Except DocumentFault Ty :=
  match table.read spelling with
  | .ok type => .ok type
  | .error why => .error (.spelling why (trimText spelling))

def readType (table : TypeTable) (value : Json) : Except DocumentFault (Option Ty) :=
  match value with
  | .null => .ok none
  | .text spelling =>
    match readSpelling table spelling with
    | .ok type => .ok (some type)
    | .error fault => .error fault
  | _ => if value.isKey then .error .unfit else .error .mistyped

def readParameter (table : TypeTable) (value : Json) : Except DocumentFault ParameterInfo :=
  match value with
  | .record fields =>
    match readType table ((Json.lookup "type" fields).getD .null) with
    | .error fault => .error fault
    | .ok type => .ok ⟨type, ((Json.lookup "by_ref" fields).getD (.bool false)).truthy⟩
  | _ => .error .unfit

def readSymbolParts (table : TypeTable) (reading : Nat) (key : String) (kind : BindingKind)
    (fields : List (String × Json)) : Except DocumentFault Symbol := do
  let field (name : String) : Json := (Json.lookup name fields).getD .null
  let name ←
    match Json.lookup "name" fields with
    | some name => .ok (Name.ofJson name)
    | none => .error .missingField
  let type ← readType table (field "type")
  let parameters ←
    match ((Json.lookup "params" fields).getD (.list [])).items? with
    | some items => items.mapM (readParameter table)
    | none => .error .mistyped
  let declaring ← readType table (field "declaring")
  .ok
    { origin := .listed reading key
      kind
      name
      type
      isStatic := (field "static").truthy
      isSynthetic := (field "synthetic").truthy
      parameters
      declaring }

def readSymbol (table : TypeTable) (reading : Nat) (key : String) (info : Json) :
    Except DocumentFault Symbol :=
  match info with
  | .record fields =>
    match (Json.lookup "kind" fields).getD .null with
    | .text word =>
      match BindingKind.ofWord? word with
      | none => .error (.symbolKind key info)
      | some kind =>
        match readSymbolParts table reading key kind fields with
        | .error .missingField => .error (.symbolMalformed key)
        | .error .unfit => .error (.symbolMalformed key)
        | result => result
    | kind => if kind.isKey then .error (.symbolKind key info) else .error .mistyped
  | _ => .error (.symbolKind key info)

def readSymbols (table : TypeTable) (reading : Nat) (value : Json) :
    Except DocumentFault (List (String × Symbol)) :=
  match value with
  | .record fields =>
    fields.mapM fun field =>
      match readSymbol table reading field.1 field.2 with
      | .ok symbol => .ok (field.1, symbol)
      | .error fault => .error fault
  | _ => .error .unfit

end UnitySharp
