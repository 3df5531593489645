import UnitySharp.Comment.Attach
import UnitySharp.Convert.Step
import UnitySharp.Document.Basic

/-!
# Conversions

A module is converted by taking its tree through all steps, attaching the comments of its source
text, and writing the result.  Errors that the analyzer reported stop a conversion before anything
is touched, unless it is told to do its best.
-/

namespace UnitySharp

/-- Why a module was not converted: something went wrong on the way, the analyzer had reported
errors, or there were too many of them. -/
inductive ConvertFailure where
  | fault (fault : Fault)
  | refused
  | tooManyIssues
deriving DecidableEq, Repr

/-- A converted module.  The orphans are the comments that found no place in the text. -/
structure Conversion where
  path : Name
  text : String
  unsupported : List Unsupported
  orphans : List Comment

abbrev Convert := EStateM ConvertFailure Session

namespace Convert

def ofPass {α : Type} (pass : Pass α) : Convert α := fun session =>
  match pass session with
  | .ok result session => .ok result session
  | .error fault session => .error (.fault fault) session

def report (f : Report → Report) : Convert Unit :=
  modify fun session => { session with report := f session.report }

def ofExcept {α : Type} (answer : Except Fault α) : Convert α :=
  ofPass (Pass.ofExcept answer)

def recordError (path : Name) (source : Json) (error : AnalyzerError) : Convert Unit := do
  let recorded :=
  (← get).report.addAnalyzerError path source error.position (Name.ofJson error.message)
  let (report, isFull) ← ofExcept recorded
  modify fun session => { session with report }
  if isFull then throw .tooManyIssues

/-- Deals with the analyzer's errors: they are recorded and stop the conversion, or are mere
warnings. -/
def screen (errors : List AnalyzerError) (bestEffort : Bool) : Convert Unit := do
  let t := (← get).tree
  if !errors.isEmpty && !bestEffort then
    errors.forM (recordError t.path t.source)
    throw .refused
  else
    errors.forM fun error => report fun r => r.warn t.path error.message error.position

def takeStep (step : Step) : Convert Unit := do
  report fun r => r.info 2 ("    " ++ step.word)
  ofPass step.run

def write : Convert (String × List Nat) := do
  let t := (← get).tree
  match t.marks t.root with
  | .error fault => throw (.fault fault)
  | .ok marks =>
    report fun r =>
      (Tree.unsupportedIn marks).foldl
        (fun r record => r.addUnsupported record.kind record.description record.position) r
    match Tree.layOut marks with
    | .error fault => throw (.fault fault)
    | .ok w => return (w.text, w.written)

end Convert

def convertModule (errors : List AnalyzerError) (bestEffort : Bool) : Convert Conversion := do
  let path := (← get).tree.path
  Convert.report fun r => r.info 1 ("Converting " ++ path.plain)
  Convert.screen errors bestEffort
  let source ← Convert.ofExcept (sourceText (← get).tree.source)
  Step.all.forM Convert.takeStep
  let comments ← Convert.ofPass (Pass.attach (scanComments source))
  let (text, written) ← Convert.write
  let orphans := comments.filter fun comment => !written.contains comment.index
  orphans.forM fun comment => Convert.report fun r =>
    r.addOrphan comment.text (some comment.position)
  Convert.report fun r => r.info 1 ("Finished " ++ path.plain)
  return { path, text, unsupported := (← get).report.unsupported, orphans }

end UnitySharp
