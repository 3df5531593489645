import UnitySharp.Name

/-!
# Pictures of problems

A picture shows lines of a source text with carets beneath the places it talks about.  Lines end at
a newline, a carriage return, or the two together.  The texts of a picture are only looked at when
it is drawn; one that is no text is a fault then.
-/

namespace UnitySharp

/-- The offsets just after each line end, the text itself starting at `offset`. -/
def lineEndsFrom (offset : Nat) : List Char → List Nat
  | [] => []
  | '\r' :: '\n' :: rest => (offset + 2) :: lineEndsFrom (offset + 2) rest
  | '\r' :: rest => (offset + 1) :: lineEndsFrom (offset + 1) rest
  | '\n' :: rest => (offset + 1) :: lineEndsFrom (offset + 1) rest
  | _ :: rest => lineEndsFrom (offset + 1) rest

def lineBounds (cs : List Char) : List Nat :=
  0 :: lineEndsFrom 0 cs ++ [cs.length]

/-- The row and column of an offset.  An offset before the text is on row zero, with a column
counted back from the end of the text. -/
def rowAndColumn (bounds : List Nat) (offset : Int) : Nat × Int :=
  let row := bounds.dropLast.countP fun (bound : Nat) => (bound : Int) ≤ offset
  let start := if row = 0 then bounds.getLastD 0 else bounds.getD (row - 1) 0
  (row, offset - (start : Nat))

def lineOfRow (cs : List Char) (bounds : List Nat) (row : Nat) : List Char :=
  let start := bounds.getD (row - 1) 0
  let stop := bounds.getD (row - 1 + 1) 0
  (cs.take stop).drop start

/-- The characters before a column; a negative column leaves out characters at the end. -/
def beforeColumn (line : List Char) (column : Int) : List Char :=
  if 0 ≤ column then line.take column.toNat else line.take (line.length - (-column).toNat)

/-- The number of a row, right-aligned, with the rule beside it. -/
def rowMargin (row : Nat) : String :=
  let digits := ' ' :: (toString row).toList
  String.ofList (List.replicate (6 - digits.length) ' ' ++ digits) ++ " |"

/-- A line with carets beneath some of its characters and a caption beside them. -/
def illustration (line : List Char) (column width : Int) (margin caption : String) : String :=
  let blanks := (margin.toList ++ beforeColumn line column).map fun c => if c = '\t' then c else ' '
  let carets := (max 1 (min width ((line.length : Int) - column))).toNat
  margin ++ String.ofList (trimmedRight line) ++ "\n" ++ String.ofList blanks ++
    String.ofList (List.replicate carets '^') ++ " " ++ caption

structure Callout where
  path : Name
  source : Json
  position : Position
  caption : Name
  width : Int

/-- A source text; one that is missing in any sense is empty. -/
def sourceText (source : Json) : Except Fault String :=
  match source with
  | .text s => .ok s
  | other => if other.truthy then .error .mistyped else .ok ""

def Callout.illustrate (callout : Callout) : Except Fault String := do
  let cs := (← sourceText callout.source).toList
  let caption ← callout.caption.asText .mistyped
  let bounds := lineBounds cs
  let offset := (LineIndex.ofChars cs).offset callout.position
  let (row, column) := rowAndColumn bounds offset
  .ok (illustration (lineOfRow cs bounds row) column callout.width (rowMargin row) caption)

structure Picture where
  intro : Name
  callouts : List Callout
  footer : List Name

/-- The lines for callouts, with a path wherever it changes from the one shown last. -/
def calloutLines : Name → List Callout → Except Fault (List String)
  | _, [] => .ok []
  | shown, callout :: rest => do
    let picture ← callout.illustrate
    let later ← calloutLines callout.path rest
    .ok ((if shown.same callout.path then [] else [callout.path.plain]) ++ picture :: later)

def Picture.text (picture : Picture) : Except Fault String := do
  let callouts ← calloutLines (.other .null) picture.callouts
  let intro ← picture.intro.asText .mistyped
  let footer ← picture.footer.mapM fun line => line.asText .mistyped
  .ok ("\n".intercalate ([intro, ""] ++ callouts ++ footer))

end UnitySharp
