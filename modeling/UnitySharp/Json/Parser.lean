import UnitySharp.Json.Basic

/-!
# Reading JSON text

Each reader returns what it read and the characters that follow.  The recursion is bounded by the
number of characters. The first thing that cannot be read decides what is wrong with a text: it is
malformed there, or an integer has more digits than are put up with.

Beyond the standard, `NaN`, `Infinity` and `-Infinity` are numbers.  A field that occurs twice in a
record keeps its first place and its last value.
-/

namespace UnitySharp.Json

inductive TextFault where
  | malformed
  | tooManyDigits
deriving DecidableEq, Repr

/-- What reading a part of a text gives: the part, and the characters after it. -/
abbrev Parsed (α : Type) := Except TextFault (α × List Char)

def isJsonBlank (c : Char) : Bool :=
  c == ' ' || c == '\t' || c == '\n' || c == '\r'

def skipBlanks (cs : List Char) : List Char :=
  cs.dropWhile isJsonBlank

def parseWord (value : Json) : List Char → List Char → Parsed Json
  | [], cs => .ok (value, cs)
  | _ :: _, [] => .error .malformed
  | w :: ws, c :: cs => if w = c then parseWord value ws cs else .error .malformed

def hexDigit? (c : Char) : Option Nat :=
  if '0' ≤ c && c ≤ '9' then some (c.toNat - 48)
  else if 'a' ≤ c && c ≤ 'f' then some (c.toNat - 87)
  else if 'A' ≤ c && c ≤ 'F' then some (c.toNat - 55)
  else none

def fourHex? : List Char → Option (Nat × List Char)
  | a :: b :: c :: d :: rest => do
    let a ← hexDigit? a
    let b ← hexDigit? b
    let c ← hexDigit? c
    let d ← hexDigit? d
    some (((a * 16 + b) * 16 + c) * 16 + d, rest)
  | _ => none

/-- The character of a unit of UTF-16; half of a pair on its own becomes the replacement
character. -/
def charOfUnit (n : Nat) : Char :=
  if 0xD800 ≤ n && n ≤ 0xDFFF then Char.ofNat 0xFFFD else Char.ofNat n

/-- The character of a numeric escape, whose first unit has been read: two halves of a pair join. -/
def escapedUnit (unit : Nat) (rest : List Char) : Char × List Char :=
  if 0xD800 ≤ unit && unit ≤ 0xDBFF then
    match rest with
    | '\\' :: 'u' :: more =>
      match fourHex? more with
      | some (low, after) =>
        if 0xDC00 ≤ low && low ≤ 0xDFFF then
          (Char.ofNat (0x10000 + (unit - 0xD800) * 0x400 + (low - 0xDC00)), after)
        else (charOfUnit unit, rest)
      | none => (charOfUnit unit, rest)
    | _ => (charOfUnit unit, rest)
  else (charOfUnit unit, rest)

def simpleEscape? : Char → Option Char
  | '"' => some '"'
  | '\\' => some '\\'
  | '/' => some '/'
  | 'b' => some '\x08'
  | 'f' => some '\x0c'
  | 'n' => some '\n'
  | 'r' => some '\r'
  | 't' => some '\t'
  | _ => none

/-- The rest of a text whose opening mark has been read; `read` holds its characters in reverse. -/
def parseText : Nat → List Char → List Char → Parsed String
  | 0, _, _ => .error .malformed
  | _ + 1, _, [] => .error .malformed
  | fuel + 1, read, c :: rest =>
    if c == '"' then .ok (String.ofList read.reverse, rest)
    else if c == '\\' then
      match rest with
      | 'u' :: more =>
        match fourHex? more with
        | some (unit, after) =>
          let (char, after) := escapedUnit unit after
          parseText fuel (char :: read) after
        | none => .error .malformed
      | e :: more =>
        match simpleEscape? e with
        | some char => parseText fuel (char :: read) more
        | none => .error .malformed
      | [] => .error .malformed
    else if c.toNat < 32 then .error .malformed
    else parseText fuel (c :: read) rest

def isDecimal (c : Char) : Bool :=
  '0' ≤ c && c ≤ '9'

def decimalValue (cs : List Char) : Nat :=
  cs.foldl (fun n c => n * 10 + (c.toNat - 48)) 0

def parseFraction (cs : List Char) : List Char × List Char :=
  match cs with
  | '.' :: rest =>
    let digits := rest.takeWhile isDecimal
    if digits.isEmpty then ([], cs) else (digits, rest.dropWhile isDecimal)
  | _ => ([], cs)

def parseExponent (cs : List Char) : Option Int × List Char :=
  match cs with
  | mark :: rest =>
    if mark == 'e' || mark == 'E' then
      let (negative, unsigned) :=
        match rest with
        | '-' :: more => (true, more)
        | '+' :: more => (false, more)
        | more => (false, more)
      let digits := unsigned.takeWhile isDecimal
      if digits.isEmpty then (none, cs)
      else
        let n : Int := decimalValue digits
        (some (if negative then -n else n), unsigned.dropWhile isDecimal)
    else (none, cs)
  | [] => (none, cs)

def mostIntegerDigits : Nat := 4300

def parseNumber (negative : Bool) (cs : List Char) : Parsed Json :=
  let whole := cs.takeWhile isDecimal
  let (whole, rest) :=
    match whole with
    | '0' :: _ => (['0'], cs.drop 1)
    | _ => (whole, cs.dropWhile isDecimal)
  if whole.isEmpty then .error .malformed
  else
    let (fraction, rest) := parseFraction rest
    let (exponent, rest) := parseExponent rest
    if fraction.isEmpty && exponent.isNone then
      if mostIntegerDigits < whole.length then .error .tooManyDigits
      else
        let n : Int := decimalValue whole
        .ok (.int (if negative then -n else n), rest)
    else
      let power : Int := exponent.getD 0 - fraction.length
      .ok (.double (Double.ofDecimal negative (decimalValue (whole ++ fraction)) power), rest)

def parseScalar (cs : List Char) : Parsed Json :=
  match cs with
  | 'n' :: _ => parseWord .null "null".toList cs
  | 't' :: _ => parseWord (.bool true) "true".toList cs
  | 'f' :: _ => parseWord (.bool false) "false".toList cs
  | 'N' :: _ => parseWord (.double .notANumber) "NaN".toList cs
  | 'I' :: _ => parseWord (.double (.infinite false)) "Infinity".toList cs
  | '-' :: 'I' :: more => parseWord (.double (.infinite true)) "nfinity".toList more
  | '-' :: more => parseNumber true more
  | _ => parseNumber false cs

mutual

def parseValue : Nat → List Char → Parsed Json
  | 0, _ => .error .malformed
  | fuel + 1, cs =>
    match cs with
    | '"' :: rest => (parseText (rest.length + 1) [] rest).map fun (s, rest) => (.text s, rest)
    | '[' :: rest =>
      match skipBlanks rest with
      | ']' :: rest => .ok (.list [], rest)
      | rest => (parseItems fuel [] rest).map fun (items, rest) => (.list items, rest)
    | '\x7b' :: rest =>
      match skipBlanks rest with
      | '\x7d' :: rest => .ok (.record [], rest)
      | rest => (parseFields fuel [] rest).map fun (fields, rest) => (.record fields, rest)
    | _ => parseScalar cs

def parseItems : Nat → List Json → List Char → Parsed (List Json)
  | 0, _, _ => .error .malformed
  | fuel + 1, read, cs =>
    match parseValue fuel cs with
    | .error fault => .error fault
    | .ok (value, rest) =>
      match skipBlanks rest with
      | ']' :: rest => .ok ((value :: read).reverse, rest)
      | ',' :: rest => parseItems fuel (value :: read) (skipBlanks rest)
      | _ => .error .malformed

def parseFields : Nat → List (String × Json) → List Char → Parsed (List (String × Json))
  | 0, _, _ => .error .malformed
  | fuel + 1, read, cs =>
    match cs with
    | '"' :: rest =>
      match parseText (rest.length + 1) [] rest with
      | .error fault => .error fault
      | .ok (name, rest) =>
        match skipBlanks rest with
        | ':' :: rest =>
          match parseValue fuel (skipBlanks rest) with
          | .error fault => .error fault
          | .ok (value, rest) =>
            let fields := setField name value read
            match skipBlanks rest with
            | '\x7d' :: rest => .ok (fields, rest)
            | ',' :: rest => parseFields fuel fields (skipBlanks rest)
            | _ => .error .malformed
        | _ => .error .malformed
    | _ => .error .malformed

end

def parseChars (cs : List Char) : Except TextFault Json :=
  match parseValue (cs.length + 1) (skipBlanks cs) with
  | .ok (value, rest) => if (skipBlanks rest).isEmpty then .ok value else .error .malformed
  | .error fault => .error fault

def parse (s : String) : Except TextFault Json :=
  parseChars s.toList

end UnitySharp.Json
