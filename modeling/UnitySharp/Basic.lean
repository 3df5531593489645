/-!
# Places, nodes and faults

What every other module speaks of: places in a text, the identities of nodes, and why something
could not be done.
-/

namespace UnitySharp

/-! ## Positions and line indices

A line index turns positions of one text, counted from one, into character offsets and back.  Lines
beyond either end are taken to the nearest line, and a column may lead past its line or before the
start of the text.
-/

structure Position where
  line : Int
  column : Int
deriving DecidableEq, Repr, Inhabited

/-- Positions are compared by line first and by column within a line. -/
def Position.before (p q : Position) : Bool :=
  p.line < q.line || (p.line == q.line && p.column < q.column)

def Position.text (p : Position) : String :=
  "(" ++ toString p.line ++ ", " ++ toString p.column ++ ")"

def describePosition : Option Position → String
  | none => "synthetic"
  | some p => p.text

/-- A place inside a sentence, which may be none at all. -/
def placeText : Option Position → String
  | none => "None"
  | some p => p.text

structure LineIndex where
  starts : List Nat
  size : Nat

def lineStartsFrom (offset : Nat) : List Char → List Nat
  | [] => []
  | c :: rest =>
    if c = '\n' then (offset + 1) :: lineStartsFrom (offset + 1) rest
    else lineStartsFrom (offset + 1) rest

def LineIndex.ofChars (cs : List Char) : LineIndex :=
  ⟨0 :: lineStartsFrom 0 cs, cs.length⟩

def LineIndex.ofText (s : String) : LineIndex :=
  .ofChars s.toList

/-- The offset of a position: its line is taken to the nearest line of the text, and the result
never lies past the end of the text. -/
def LineIndex.offset (index : LineIndex) (p : Position) : Int :=
  let row := min (max p.line 1) index.starts.length
  min (((index.starts.getD (row - 1).toNat 0 : Nat) : Int) + p.column - 1) index.size

/-- The position of an offset: the last line that starts at or before it.  An offset before the
start of the text falls on line zero, whose columns are counted from the last line start. -/
def LineIndex.position (index : LineIndex) (offset : Int) : Position :=
  let row := index.starts.countP fun (start : Nat) => (start : Int) ≤ offset
  let start := if row = 0 then index.starts.getLastD 0 else index.starts.getD (row - 1) 0
  ⟨row, offset - (start : Nat) + 1⟩

/-! ## Blank characters and trimming

White space is what Unicode calls white space, together with the four information separators of
ASCII. Trimming removes it from the ends of a text and nowhere else.
-/

/-- White space: the ASCII blanks and separators, and the wider spaces of Unicode. -/
def isBlank (c : Char) : Bool :=
  let n := c.toNat
  (9 ≤ n && n ≤ 13) || (28 ≤ n && n ≤ 32) || n == 0x85 || n == 0xA0 || n == 0x1680 ||
    (0x2000 ≤ n && n ≤ 0x200A) || n == 0x2028 || n == 0x2029 || n == 0x202F || n == 0x205F ||
    n == 0x3000

def trimmedLeft (cs : List Char) : List Char :=
  cs.dropWhile isBlank

def trimmedRight (cs : List Char) : List Char :=
  (cs.reverse.dropWhile isBlank).reverse

def trimmed (cs : List Char) : List Char :=
  trimmedRight (trimmedLeft cs)

def trimText (s : String) : String :=
  String.ofList (trimmed s.toList)

theorem trimmedRight_append_blanks (cs : List Char) :
    cs = trimmedRight cs ++ (cs.reverse.takeWhile isBlank).reverse := by
  rw [trimmedRight, ← List.reverse_append, List.takeWhile_append_dropWhile, List.reverse_reverse]

/-! ## Identities of nodes

A tree keeps its nodes in numbered slots, and a node is known by its slot.  A node that already
stands among the children of another but has not been given a slot yet is loose; loose nodes are
numbered apart.
-/

inductive NodeId where
  | slot (n : Nat)
  | loose (n : Nat)
deriving DecidableEq, Inhabited, Repr

namespace NodeId

def isLoose : NodeId → Bool
  | .slot _ => false
  | .loose _ => true

def number : NodeId → Int
  | .slot n => n
  | .loose _ => -1

end NodeId

/-! ## Faults

Why a tree could not be changed, read or printed as asked.  A document may put nearly anything where
a name or a child belongs, and such a thing is only refused where it is put to use.
-/

/-- A fault: the node in question has no parent, it stands where the operation cannot be done,
something has not the parts it is asked for, a value is of the wrong sort, or the depth allowed for
is used up. -/
inductive Fault where
  | detached (kind : String) (node : NodeId)
  | misplaced
  | unfit
  | mistyped
  | exhausted
deriving DecidableEq, Repr

end UnitySharp
