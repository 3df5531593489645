import UnitySharp.Number.Shortest
import UnitySharp.Text.Letter

/-!
# JSON values

Integers have unlimited size and are kept apart from doubles; the fields of a record keep the order
in which the document gives them.
-/

namespace UnitySharp

inductive Json where
  | null
  | bool (b : Bool)
  | int (i : Int)
  | double (x : Double)
  | text (s : String)
  | list (items : List Json)
  | record (fields : List (String × Json))
deriving Inhabited, BEq, Repr

namespace Json

def lookup (key : String) : List (String × Json) → Option Json
  | [] => none
  | (name, value) :: rest => if name = key then some value else lookup key rest

def field? (key : String) : Json → Option Json
  | .record fields => lookup key fields
  | _ => none

def isNull : Json → Bool
  | .null => true
  | _ => false

/-- The truth value: null, false, zero and everything empty are false. -/
def truthy : Json → Bool
  | .null => false
  | .bool b => b
  | .int i => i != 0
  | .double x => !x.isZero
  | .text s => !s.isEmpty
  | .list items => !items.isEmpty
  | .record fields => !fields.isEmpty

def isKey : Json → Bool
  | .list _ => false
  | .record _ => false
  | _ => true

def isNaN : Json → Bool
  | .double .notANumber => true
  | _ => false

def integer? : Json → Option Int
  | .bool b => some (if b then 1 else 0)
  | .int i => some i
  | _ => none

/-- What one gets by going through the value: the items of a list, the names of a record, the
characters of a text. -/
def items? : Json → Option (List Json)
  | .list items => some items
  | .record fields => some (fields.map fun field => .text field.1)
  | .text s => some (s.toList.map fun c => .text (String.singleton c))
  | _ => none

mutual

/-- Equality of values, where numbers are compared by value whatever their form.  What is not a
number differs from itself, except inside lists and records. -/
def sameValue : Json → Json → Bool
  | .null, .null => true
  | .text s, .text t => s == t
  | .list xs, .list ys => sameItems xs ys
  | .record xs, .record ys => xs.length == ys.length && fieldsAmong xs ys
  | .double x, .double y => x.equals y
  | .double x, other =>
    match other.integer? with
    | some i => x.equalsInt i
    | none => false
  | value, .double y =>
    match value.integer? with
    | some i => y.equalsInt i
    | none => false
  | value, other =>
    match value.integer?, other.integer? with
    | some i, some j => i == j
    | _, _ => false

def sameItems : List Json → List Json → Bool
  | [], [] => true
  | x :: xs, y :: ys => ((x.isNaN && y.isNaN) || sameValue x y) && sameItems xs ys
  | _, _ => false

def fieldsAmong : List (String × Json) → List (String × Json) → Bool
  | [], _ => true
  | (name, value) :: rest, ys =>
    (match lookup name ys with
      | some other => (value.isNaN && other.isNaN) || sameValue value other
      | none => false) && fieldsAmong rest ys

end

def sameKey (key other : Json) : Bool :=
  (key.isNaN && other.isNaN) || sameValue key other

/-- Gives a field a value: in its place if the record has it already, at the end otherwise. -/
def setField (key : String) (value : Json) : List (String × Json) → List (String × Json)
  | [] => [(key, value)]
  | (name, old) :: rest =>
    if name = key then (name, value) :: rest else (name, old) :: setField key value rest

end Json

/-! ## Values as messages show them

A text is shown between single quotation marks, unless it has a single mark and no double
one.  Unprintable characters are written as hexadecimal escapes.
-/

def hexText (width n : Nat) : List Char :=
  let digits := Nat.toDigits 16 n
  List.replicate (width - digits.length) '0' ++ digits

def shownChar (mark c : Char) : List Char :=
  if c == mark || c == '\\' then ['\\', c]
  else if c == '\n' then ['\\', 'n']
  else if c == '\r' then ['\\', 'r']
  else if c == '\t' then ['\\', 't']
  else if isPrintable c then [c]
  else if c.toNat < 0x100 then '\\' :: 'x' :: hexText 2 c.toNat
  else if c.toNat < 0x10000 then '\\' :: 'u' :: hexText 4 c.toNat
  else '\\' :: 'U' :: hexText 8 c.toNat

def shownText (s : String) : String :=
  let cs := s.toList
  let mark := if cs.contains '\x27' && !cs.contains '"' then '"' else '\x27'
  String.ofList (mark :: (cs.flatMap (shownChar mark) ++ [mark]))

namespace Json

mutual

def shown : Json → String
  | .null => "None"
  | .bool b => if b then "True" else "False"
  | .int i => toString i
  | .double x => x.text
  | .text s => shownText s
  | .list items => "[" ++ shownItems items ++ "]"
  | .record fields => "\x7b" ++ shownFields fields ++ "\x7d"

def shownItems : List Json → String
  | [] => ""
  | [value] => shown value
  | value :: rest => shown value ++ ", " ++ shownItems rest

def shownFields : List (String × Json) → String
  | [] => ""
  | [(name, value)] => shownText name ++ ": " ++ shown value
  | (name, value) :: rest => shownText name ++ ": " ++ shown value ++ ", " ++ shownFields rest

end

def plain : Json → String
  | .text s => s
  | value => shown value

end Json

end UnitySharp
