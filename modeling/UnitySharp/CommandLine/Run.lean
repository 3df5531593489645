import UnitySharp.CommandLine.Arguments
import UnitySharp.CommandLine.Host
import UnitySharp.Convert.Basic
import UnitySharp.Json.Parser

/-!
# Running the converter

Each document named on the command line is read, converted and written beside it or to the directory
asked for.  A document that cannot be read, or whose module had errors, counts as a failure and does
not stop the others; too many issues stop the whole run.
-/

namespace UnitySharp.CommandLine

structure Outcome where
  status : Nat
  output : String
  log : String
deriving Repr

inductive RunFault where
  | file (fault : FileFault)
  | tooManyDigits
  | document (fault : DocumentFault)
  | tree (fault : Fault)

inductive Verdict where
  | converted
  | failed
  | gaveUp
deriving DecidableEq, Repr

def withNewlines (s : String) : String :=
  String.ofList (go s.toList)
where
  go : List Char → List Char
    | [] => []
    | '\r' :: '\n' :: rest => '\n' :: go rest
    | '\r' :: rest => '\n' :: go rest
    | c :: rest => c :: go rest

/-- Where a converted module goes: beside its document, or under its own name into a directory. -/
def targetPath (document : DiskPath) (module : Name) (output : Setting String) :
    Except RunFault DiskPath :=
  match output, module with
  | .absent, _ => .ok (document.withSuffix ".cs")
  | .given directory, .text path =>
    .ok ((DiskPath.ofText directory).join ⟨"", [(DiskPath.ofText path).stem ++ ".cs"]⟩)
  | _, _ => .error (.tree .mistyped)

section

variable {m : Type → Type} [Monad m]

def firstFile (host : Host m) : List DiskPath → ExceptT RunFault m (Option String)
  | [] => return none
  | path :: rest => do
    match ← host.readText path with
    | .ok text => return some (withNewlines text)
    | .error fault => if fault.isAbsence then firstFile host rest else throw (.file fault)

/-- The source text of a module whose document does not carry it: a file of its name, in the current
directory or beside the document. -/
def findSource (host : Host m) (document : DiskPath) (module : Name) :
    ExceptT RunFault m (Option String) := do
  match module with
  | .other _ => throw (.tree .mistyped)
  | .text path =>
    let path := DiskPath.ofText path
    firstFile host [path, document.parent.join path]

def loadDocument (host : Host m) (path : DiskPath) (given : Option String) :
    ExceptT RunFault m (Except String Document) := do
  match ← host.readText path with
  | .error .zeroInPath => throw (.file .zeroInPath)
  | .error fault => return .error (fault.message path)
  | .ok text =>
    match Json.parse (withNewlines text) with
    | .error .malformed => return .error (path.text ++ " is not valid JSON")
    | .error .tooManyDigits => throw .tooManyDigits
    | .ok value =>
      match readDocument value ((given.map Json.text).getD .null) with
      | .ok document => return .ok document
      | .error fault =>
        match fault.message? with
        | some message => return .error message
        | none => throw (.document fault)

def supplySource (host : Host m) (path : DiskPath) (tree : Tree) (report : Report) :
    ExceptT RunFault m Session := do
  if tree.source.isNull then
    match ← findSource host path tree.path with
    | some text => return { tree := { tree with source := .text text }, report }
    | none =>
      let line := "No source text for " ++ tree.path.plain ++ ", so no comments either."
      return { tree, report := report.info 1 line }
  else return { tree, report }

/-- Tells what came of a conversion, and writes it unless it is only checked. -/
def deliver (host : Host m) (options : Options) (path : DiskPath) (conversion : Conversion)
    (report : Report) : ExceptT RunFault m Report := do
  let noted := report.notes.foldl (fun report note => report.info 1 note) report
  let told := noted.printLine
    (conversion.path.plain ++ ": " ++ toString conversion.unsupported.length ++ " unsupported, " ++
      toString conversion.orphans.length ++ " orphaned comments")
  if options.check then return told
  else
    let target ← targetPath path conversion.path options.output
    match ← host.writeText target conversion.text with
    | .ok () => return told.info 1 ("Wrote " ++ target.text)
    | .error fault => throw (.file fault)

def complain (report : Report) : ExceptT RunFault m Report := do
  match report.complain with
  | (printed, .ok ()) => return printed
  | (_, .error fault) => throw (.tree fault)

def runDocument (host : Host m) (options : Options) (given : Option String) (report : Report)
    (name : String) : ExceptT RunFault m (Report × Verdict) := do
  let path := DiskPath.ofText name
  let report := report.reset
  match ← loadDocument host path given with
  | .error message => return (report.printLine (name ++ ": " ++ message), .failed)
  | .ok document =>
    let session ← supplySource host path document.tree report
    match convertModule document.errors options.keepGoing session with
    | .ok conversion session => return (← deliver host options path conversion session.report,
      .converted)
    | .error .refused session => return (← complain session.report, .failed)
    | .error .tooManyIssues session =>
      let stars := (← complain session.report).printLine (String.join (List.replicate 35 " *"))
      return (stars.printLine "Giving up after a few issues. One crisis at a time, eh?", .gaveUp)
    | .error (.fault fault) _ => throw (.tree fault)

def runDocuments (host : Host m) (options : Options) (given : Option String) :
    Report → Bool → List String → ExceptT RunFault m (Report × Bool × Verdict)
  | report, anyFailed, [] => return (report, anyFailed, .converted)
  | report, anyFailed, name :: rest => do
    let (report, verdict) ← runDocument host options given report name
    if verdict = .gaveUp then return (report, true, .gaveUp)
    else runDocuments host options given report (anyFailed || verdict == .failed) rest

def givenSource (host : Host m) (source : Setting String) : ExceptT RunFault m (Option String) := do
  match source with
  | .absent => return none
  | .void => throw (.tree .mistyped)
  | .given name =>
    match ← host.readText (DiskPath.ofText name) with
    | .ok text => return some (withNewlines text)
    | .error fault => throw (.file fault)

def run (host : Host m) (options : Options) : ExceptT RunFault m Outcome := do
  let given ← givenSource host options.source
  let start := Report.ofVerbosity options.verbosity options.maxIssues.value?
  let (report, anyFailed, verdict) ← runDocuments host options given start false options.documents
  if anyFailed then return ⟨1, "", report.log⟩
  else if options.check && verdict == .converted then
    return ⟨0, "", (report.printLine "Looks plausible to me.").log⟩
  else return ⟨0, "", report.log⟩

end

def usage : String :=
  "usage: us2cs [-h] [-o OUTPUT] [-k] [-v] [-m MAX_ISSUES] [-c] [-s SOURCE]\n" ++
  "             documents [documents ...]\n"

def introduction : String :=
  "This converts UnityScript modules into C#, working from the resolved trees\n" ++
  "the upstream compiler writes out as JSON documents.\n\n" ++ usage ++
  "\n\nFor example:\n\n    us2cs Player.json -o converted\n\n" ++
  "will write converted/Player.cs if possible, or else try to explain why not.\n\n" ++
  "    us2cs -h\n\nwill explain all the arguments.\n"

def helpText : String :=
  usage ++
  "\nUnityScript to C# converter.\n\n" ++
  "positional arguments:\n" ++
  "  documents             resolved-tree documents, one per module.\n\n" ++
  "options:\n" ++
  "  -h, --help            show this help message and exit\n" ++
  "  -o OUTPUT, --output OUTPUT\n" ++
  "                        Directory for the .cs files. By default each goes\n" ++
  "                        beside its document.\n" ++
  "  -k, --keep-going      Convert despite upstream errors, accepting whatever\n" ++
  "                        comes out.\n" ++
  "  -v, --verbose         Say more about what is going on. Repeat for even more.\n" ++
  "  -m MAX_ISSUES, --max-issues MAX_ISSUES\n" ++
  "                        Give up on a module after this many issues.\n" ++
  "  -c, --check           Convert and report, but write nothing.\n" ++
  "  -s SOURCE, --source SOURCE\n" ++
  "                        Raw source text of the module, when there is one\n" ++
  "                        document and it lacks its own.\n"

def ArgumentFault.outcome (fault : ArgumentFault) : Outcome :=
  match fault with
  | .helpWanted => ⟨0, helpText, ""⟩
  | other => ⟨2, "", usage ++ "us2cs: error: " ++ other.message ++ "\n"⟩

def runArguments {m : Type → Type} [Monad m] (host : Host m) (arguments : List String) :
    ExceptT RunFault m Outcome := do
  match Options.read arguments with
  | .error fault => return fault.outcome
  | .ok options =>
    if !options.source.isAbsent && 1 < options.documents.length then
      return ArgumentFault.outcome .sourceOfMany
    else run host options

def command {m : Type → Type} [Monad m] (host : Host m) (arguments : List String) :
    ExceptT RunFault m Outcome :=
  if arguments.isEmpty then return ⟨0, introduction, ""⟩ else runArguments host arguments

end UnitySharp.CommandLine
