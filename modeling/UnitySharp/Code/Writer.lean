import UnitySharp.Comment.Basic
import UnitySharp.Report.Basic

/-!
# Writing lines

What there is to write comes as marks: text, line ends, changes of level, comments, and records of
what cannot be written.  Indentation is put in front of the first thing written on a line, and
comments that have to end a line wait until the line ends.
-/

namespace UnitySharp

/-- A writer.  It is spoiled once something that is no text has been written, which nobody notices
before the text is put together. -/
structure Writer where
  text : String
  level : Nat
  atLineStart : Bool
  trailing : List String
  written : List Nat
  isSpoiled : Bool
deriving Inhabited, Repr

namespace Writer

def initial : Writer :=
  { text := "", level := 0, atLineStart := true, trailing := [], written := [], isSpoiled := false }

def margin (level : Nat) : String :=
  String.ofList (List.replicate (4 * level) ' ')

def write (w : Writer) (s : String) : Writer :=
  if s.isEmpty then w
  else if w.atLineStart then { w with text := w.text ++ margin w.level ++ s, atLineStart := false }
  else { w with text := w.text ++ s }

/-- Writes a name on the current line.  One that is empty in any sense leaves no trace, and any
other that is no text spoils the writer. -/
def writeName (w : Writer) (name : Name) : Writer :=
  match name with
  | .text s => w.write s
  | .other value => if value.truthy then { w with atLineStart := false, isSpoiled := true } else w

def trail (w : Writer) (s : String) : Writer :=
  { w with trailing := w.trailing ++ [s] }

def newline (w : Writer) : Writer :=
  let ended := if w.trailing.isEmpty then w.text else w.text ++ " " ++ " ".intercalate w.trailing
  { w with text := ended ++ "\n", atLineStart := true, trailing := [] }

def indent (w : Writer) : Writer :=
  { w with level := w.level + 1 }

def dedent? (w : Writer) : Option Writer :=
  if w.level = 0 then none else some { w with level := w.level - 1 }

def finish (w : Writer) : Writer :=
  if !w.trailing.isEmpty || !w.atLineStart then w.newline else w

def credit (w : Writer) (c : Comment) : Writer :=
  { w with written := w.written ++ [c.index] }

/-- Writes a comment where it stands; one without an anchor is passed over. -/
def comment (w : Writer) (c : Comment) : Writer :=
  match c.anchor with
  | .above =>
    if w.atLineStart then
      ((commentLines c.text).foldl (fun w line => (w.write line).newline) w).credit c
    else (w.write (c.inlineText ++ " ")).credit c
  | .left => (w.write (c.inlineText ++ " ")).credit c
  | .right => (w.trail c.text).credit c
  | .none => w

end Writer

inductive Mark where
  | text (s : String)
  | name (name : Name)
  | line
  | indent
  | dedent
  | comment (c : Comment)
  | unsupported (record : Unsupported)
deriving Repr

namespace Writer

def put? (w : Writer) : Mark → Option Writer
  | .text s => some (w.write s)
  | .name name => some (w.writeName name)
  | .line => some w.newline
  | .indent => some w.indent
  | .dedent => w.dedent?
  | .comment c => some (w.comment c)
  | .unsupported _ => some w

def putAll? (w : Writer) : List Mark → Option Writer
  | [] => some w
  | mark :: rest =>
    match w.put? mark with
    | none => none
    | some w => w.putAll? rest

end Writer

end UnitySharp
