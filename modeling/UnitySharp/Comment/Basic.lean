import UnitySharp.Basic

/-!
# Comments

A comment of the source text, with the node it is to be written with.  The anchor says where the
comment stood relative to that node.  A comment is known by its place in the list of all comments of
its text.
-/

namespace UnitySharp

inductive CommentKind where
  | line
  | block
deriving DecidableEq, Inhabited, Repr

inductive Anchor where
  | none
  | above
  | left
  | right
deriving DecidableEq, Inhabited, Repr

structure Comment where
  index : Nat
  text : String
  kind : CommentKind
  position : Position
  owner : Option NodeId
  anchor : Anchor
  distance : Int
deriving Inhabited, Repr

namespace Comment

def unclaimed (index : Nat) (text : String) (kind : CommentKind) (position : Position) : Comment :=
  { index, text, kind, position, owner := .none, anchor := .none, distance := 0 }

def endLine (comment : Comment) : Int :=
  comment.position.line + (comment.text.toList.count '\n' : Nat)

/-- The comment in a form that something may follow on the same line: a line comment becomes a
block. -/
def inlineText (comment : Comment) : String :=
  match comment.kind with
  | .line => "/* " ++ trimText (String.ofList (comment.text.toList.drop 2)) ++ " */"
  | .block => comment.text

end Comment

def splitAtChar (mark : Char) : List Char → List (List Char)
  | [] => [[]]
  | c :: rest =>
    if c = mark then [] :: splitAtChar mark rest
    else
      match splitAtChar mark rest with
      | [] => [[c]]
      | piece :: pieces => (c :: piece) :: pieces

/-- A later line of a comment, moved to its new margin: only a leading star stays one step in. -/
def continuationLine (cs : List Char) : String :=
  match trimmed cs with
  | '*' :: rest => String.ofList (' ' :: '*' :: rest)
  | other => String.ofList other

/-- The lines of a comment's text, continuation lines without their old margin. -/
def commentLines (text : String) : List String :=
  match splitAtChar '\n' text.toList with
  | [] => []
  | first :: rest => String.ofList first :: rest.map continuationLine

/-! ## Finding the comments of a text

The text is cut from left to right.  At each point the first of these that applies is taken: a
complete string literal; a line comment up to the end of its line; a block comment up to its closing
mark or the end of the text; a single character.
-/

inductive Segment where
  | string
  | comment (kind : CommentKind)
  | other
deriving DecidableEq, Repr

/-- The length of a string's remainder, its closing mark included, after its opening `mark`.  A
backslash protects any character after it, and no raw newline may stand inside. -/
def stringRest? (mark : Char) : List Char → Option Nat
  | [] => none
  | '\\' :: _ :: rest => (stringRest? mark rest).map (· + 2)
  | c :: rest =>
    if c = mark then some 1
    else if c = '\\' || c = '\n' then none
    else (stringRest? mark rest).map (· + 1)

def lineRest (cs : List Char) : Nat :=
  (cs.takeWhile fun c => c != '\r' && c != '\n').length

def blockRest : List Char → Nat
  | '*' :: '/' :: _ => 2
  | _ :: rest => blockRest rest + 1
  | [] => 0

/-- The first segment of a text that is not empty, and its length. -/
def firstSegment (cs : List Char) : Segment × Nat :=
  match cs with
  | '"' :: rest =>
    match stringRest? '"' rest with
    | some n => (.string, n + 1)
    | none => (.other, 1)
  | '\x27' :: rest =>
    match stringRest? '\x27' rest with
    | some n => (.string, n + 1)
    | none => (.other, 1)
  | '/' :: '/' :: rest => (.comment .line, lineRest rest + 2)
  | '/' :: '*' :: rest => (.comment .block, blockRest rest + 2)
  | _ => (.other, 1)

/-- The comments among the segments of a text, as kind, offset and text.  The first argument bounds
the number of segments. -/
def commentsFrom : Nat → Nat → List Char → List (CommentKind × Nat × List Char)
  | 0, _, _ => []
  | _ + 1, _, [] => []
  | bound + 1, offset, c :: rest =>
    let (segment, length) := firstSegment (c :: rest)
    let later := commentsFrom bound (offset + length) ((c :: rest).drop length)
    match segment with
    | .comment kind => (kind, offset, (c :: rest).take length) :: later
    | _ => later

def scanComments (text : String) : List Comment :=
  let cs := text.toList
  let index := LineIndex.ofChars cs
  (commentsFrom cs.length 0 cs).mapIdx fun i (kind, offset, token) =>
    Comment.unclaimed i (String.ofList (trimmedRight token)) kind (index.position offset)

end UnitySharp
