import UnitySharp.Basic
import UnitySharp.Json.Basic

/-!
# Names

The analyzer names things by text, but the document format does not insist on it.  Whatever value
stands where a name belongs is kept; it is only refused where the name has to be taken apart or
written out.
-/

namespace UnitySharp

/-- A name as a document gives it. -/
inductive Name where
  | text (s : String)
  | other (value : Json)
deriving BEq, Inhabited, Repr

namespace Name

instance : Coe String Name := ⟨Name.text⟩

def ofJson : Json → Name
  | .text s => .text s
  | value => .other value

def toJson : Name → Json
  | .text s => .text s
  | .other value => value

def text? : Name → Option String
  | .text s => some s
  | .other _ => none

def is (name : Name) (s : String) : Bool :=
  match name with
  | .text t => t == s
  | .other _ => false

def isAmong (name : Name) (texts : List String) : Bool :=
  match name with
  | .text t => texts.contains t
  | .other _ => false

def plain (name : Name) : String :=
  name.toJson.plain

def shown (name : Name) : String :=
  name.toJson.shown

def same (name other : Name) : Bool :=
  name.toJson.sameValue other.toJson

def asText (name : Name) (otherwise : Fault) : Except Fault String :=
  match name with
  | .text s => .ok s
  | .other _ => .error otherwise

/-- The text to look a name up by in a table of words.  A list or a record cannot be looked up at
all; anything else that is no text is in no such table. -/
def key? (name : Name) : Except Fault (Option String) :=
  match name with
  | .text s => .ok (some s)
  | .other value => if value.isKey then .ok none else .error .mistyped

def find? {α : Type} (name : Name) (table : List (String × α)) : Except Fault (Option α) :=
  name.key?.map fun key => key.bind fun s => List.lookup s table

def isIn (name : Name) (words : List String) : Except Fault Bool :=
  name.key?.map fun key => key.any words.contains

/-- The name with its text changed; a name that is no text stays as it is. -/
def mapText (f : String → String) : Name → Name
  | .text s => .text (f s)
  | .other value => .other value

end Name

def withoutChar (c : Char) (s : String) : String :=
  String.ofList (s.toList.filter (· != c))

def withCharReplaced (old new : Char) (s : String) : String :=
  String.ofList (s.toList.map fun c => if c = old then new else c)

/-! ## Names the front end makes up

The front end marks names of its own with dollar signs, which no source name can hold: temporaries
that hold the subject of a switch, and the fields that remember whether a class has been
initialized.  Names that survive into the output lose their markers.
-/

def isMarked (s : String) : Bool :=
  s.toList.head? == some '$'

def surfacedName (s : String) : String :=
  withCharReplaced '$' '_' s

def unmarkedName (s : String) : String :=
  withoutChar '$' s

def isAtEnd : List Char → Bool
  | [] => true
  | ['\n'] => true
  | _ => false

/-- Whether the characters are a nonempty run of a class and what comes after it satisfies a
test. -/
def isRunThen (holds : Char → Bool) (after : List Char → Bool) (cs : List Char) : Bool :=
  !(cs.takeWhile holds).isEmpty && after (cs.dropWhile holds)

def afterStart? (start cs : List Char) : Option (List Char) :=
  if start.isPrefixOf cs then some (cs.drop start.length) else none

/-- The temporary that holds the subject of a switch: `$switch$` and a number. -/
def isSwitchTemporary (s : String) : Bool :=
  match afterStart? "$switch$".toList s.toList with
  | some rest => isRunThen isDigitChar isAtEnd rest
  | none => false

/-- The field that guards a constructor's initializers: `$initialized__`, a class and `$`. -/
def isGuardName (s : String) : Bool :=
  match afterStart? "$initialized__".toList s.toList with
  | some rest => isRunThen (· != '$') (fun after => after.head? == some '$' && isAtEnd after.tail)
      rest
  | none => false

end UnitySharp
