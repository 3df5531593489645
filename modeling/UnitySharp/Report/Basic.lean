import UnitySharp.Report.Picture

/-!
# Reports

What is said about the conversion of one module.  A report may be told to give up once a number of
issues has been reached.  Unsupported constructs and orphaned comments are notes that never stop a
conversion.
-/

namespace UnitySharp

structure Unsupported where
  kind : Name
  description : String
  position : Option Position
deriving Repr

def Unsupported.text (record : Unsupported) : String :=
  describePosition record.position ++ " " ++ record.kind.plain ++ ": " ++ record.description

structure Orphan where
  text : String
  position : Option Position
deriving Repr

structure Report where
  verbosity : Int
  maxIssues : Option Int
  issues : List Picture
  unsupported : List Unsupported
  orphans : List Orphan
  log : String

namespace Report

def ofVerbosity (verbosity : Int) (maxIssues : Option Int) : Report :=
  { verbosity, maxIssues, issues := [], unsupported := [], orphans := [], log := "" }

def isOk (report : Report) : Bool :=
  report.issues.isEmpty

def printLine (report : Report) (line : String) : Report :=
  { report with log := report.log ++ line ++ "\n" }

def info (report : Report) (level : Int) (line : String) : Report :=
  if level ≤ report.verbosity then report.printLine line else report

/-- Records an issue.  The second part says whether there are now as many as the report puts up
with. -/
def addIssue (report : Report) (picture : Picture) : Report × Bool :=
  let issues := report.issues ++ [picture]
  ({ report with issues }, report.maxIssues == some (issues.length : Int))

/-- The picture of an error, which has a callout only if its place is known. -/
def errorPicture (path : Name) (source : Json) (position : Option Position)
    (message caption : Name) :
    Picture :=
  { intro := message
    callouts :=
      match position with
      | none => []
      | some position => [{ path, source, position, caption, width := 1 }]
    footer := [] }

/-- Records an error that the analyzer reported; its message has to be a text. -/
def addAnalyzerError (report : Report) (path : Name) (source : Json) (position : Option Position)
    (message : Name) : Except Fault (Report × Bool) := do
  let message ← message.asText .mistyped
  .ok (report.addIssue
    (errorPicture path source position ("The upstream compiler reported: " ++ message : String) ""))

/-- Prints an error that the analyzer reported as a mere warning. -/
def warn (report : Report) (path : Name) (message : Json) (position : Option Position) : Report :=
  report.info 1
    ("Warning: " ++ path.plain ++ " " ++ describePosition position ++ ": " ++ message.plain)

def addUnsupported (report : Report) (kind : Name) (description : String)
    (position : Option Position) : Report :=
  { report with unsupported := report.unsupported ++ [{ kind, description, position }] }

def addOrphan (report : Report) (text : String) (position : Option Position) : Report :=
  { report with orphans := report.orphans ++ [{ text, position }] }

def notes (report : Report) : List String :=
  report.unsupported.map (fun record => "Unsupported: " ++ record.text) ++
    report.orphans.map fun orphan =>
      "Orphaned comment at " ++ describePosition orphan.position ++ ": " ++ orphan.text

def reset (report : Report) : Report :=
  { report with issues := [], unsupported := [], orphans := [] }

/-- What is exclaimed ahead of a list of issues. -/
def outburst : String :=
  "Oh, Blast! This module will not convert cleanly."

def printIssues (report : Report) : List Picture → Report × Except Fault Unit
  | [] => (report, .ok ())
  | issue :: rest =>
    let ruled := report.printLine (String.join (List.replicate 20 "  -"))
    match issue.text with
    | .ok text => printIssues (ruled.printLine text) rest
    | .error fault => (ruled, .error fault)

def complain (report : Report) : Report × Except Fault Unit :=
  if report.issues.isEmpty then (report, .ok ())
  else
    ((report.printLine (String.ofList (List.replicate 60 '*'))).printLine outburst).printIssues
      report.issues

/-- Complains if there are issues; the second part is then what the complaint comes down to. -/
def assertNoIssues (report : Report) (message : Name) : Report × Except Fault (Option String) :=
  if report.issues.isEmpty then (report, .ok none)
  else
    let (printed, outcome) := report.complain
    (printed, do
      let _ ← outcome
      let message ← message.asText .mistyped
      .ok (some (outburst ++ " " ++ message)))

end Report

end UnitySharp
