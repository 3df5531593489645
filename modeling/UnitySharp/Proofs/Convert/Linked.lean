import UnitySharp.Proofs.Closure.Inlining
import UnitySharp.Proofs.SecondRun.Calls
import UnitySharp.Proofs.SecondRun.Casts
import UnitySharp.Proofs.SecondRun.Iterators
import UnitySharp.Proofs.SecondRun.Lexical
import UnitySharp.Proofs.SecondRun.Names
import UnitySharp.Proofs.SecondRun.Truth
import UnitySharp.Proofs.Switch.Assembled
import UnitySharp.Proofs.Switch.Collapsing
import UnitySharp.Proofs.ValueType.Expansion

/-!
# Links through a conversion

Every step keeps a sound tree sound and every node in its slot, so the tree of a document stays well
linked whatever steps are taken and in whatever order.
-/

namespace UnitySharp

open UnitySharp.Tree Pass

variable {s : Session}

theorem Tree.not_reach_root {t : Tree} (htop : t.parent t.root = none) : ¬t.Reach t.root t.root :=
  fun hreach => hreach.2 htop

theorem Pass.everywhere_sparesRoot {rule : Rule}
    (hrule : ∀ visit, Visits Reach visit → Visits Reach (rule visit)) (hsound : s.tree.Sound) :
    Yields (everywhere rule) s fun _ after => s.tree.SparesRoot after.tree :=
  everywhere_yields hrule (fun _ => not_reach_root) hsound.tidy hsound

theorem Pass.Settling.sparesRoot {pass : Pass Unit} (h : Settling pass s) :
    Yields pass s fun _ after => s.tree.SparesRoot after.tree :=
  Yields.mono h fun _ _ h => h.1

/-- Every step spares the root of a sound tree, whatever it changes beneath it. -/
theorem Step.run_sparesRoot (step : Step) (hsound : s.tree.Sound) :
    Yields step.run s fun _ after => s.tree.SparesRoot after.tree := by
  cases step with
  | restoreOperators => exact (OperatorCalls.everywhere_settles hsound).sparesRoot
  | collapseSwitches => exact everywhere_sparesRoot (fun _ => Switch.collapseRule_visits) hsound
  | rebuildSwitches => exact everywhere_sparesRoot (fun _ => Switch.rebuildRule_visits) hsound
  | mergeEntryPoints => exact everywhere_sparesRoot (fun _ => EntryPoint.rule_visits) hsound
  | initializeValueTypes =>
      exact everywhere_sparesRoot (fun _ => ValueType.initializationRule_visits) hsound
  | assignValueTypes =>
    exact everywhere_sparesRoot (fun _ => ValueType.assignmentRule_visits) hsound
  | inlineCaptures =>
    exact everywhere_yields (fun _ => Closure.inlineRule_visits) (fun _ => not_reach_root) hsound
      hsound
  | invertFieldGuards =>
    exact everywhere_yields (fun _ => FieldGuards.rule_visits)
      (fun _ => FieldGuards.not_around_root) hsound.tidy hsound
  | fixFunctionReferences =>
    exact everywhere_sparesRoot (fun _ => FunctionReferences.rule_visits) hsound
  | makeLookupsGeneric => exact everywhere_sparesRoot (fun _ => ComponentCalls.rule_visits) hsound
  | takeTypesAsValues => exact (TypeValues.everywhere_settles hsound).sparesRoot
  | restoreIndexers => exact (Indexers.everywhere_settles hsound).sparesRoot
  | capitalizeArrayMembers => exact everywhere_sparesRoot (fun _ => ArrayMembers.rule_visits) hsound
  | qualifyStaticMembers => exact (StaticMembers.everywhere_settles hsound).sparesRoot
  | castValues => exact Yields.mono (Casts.valueRule_settles hsound) fun _ _ h => h.1
  | castEnums => exact (Casts.enumRule_settles hsound).sparesRoot
  | declareIterators => exact (Iterators.everywhere_settles hsound).sparesRoot
  | testForTruth => exact (TruthTests.everywhere_settles hsound).sparesRoot
  | escapeReservedWords => exact Yields.mono (ReservedWords.pass_settles hsound) fun _ _ h => h.1
  | widenTypeAccess => exact (TypeAccess.everywhere_settles hsound).sparesRoot

/-- Every step takes a sound tree to a sound one. -/
theorem Step.run_sound (step : Step) (hsound : s.tree.Sound) :
    Yields step.run s fun _ after => after.tree.Sound ∧ s.tree.Keeps after.tree :=
  (step.run_sparesRoot hsound).mono fun _ _ h => ⟨h.sound hsound, h.keeps⟩

/-- So does every sequence of steps. -/
theorem Step.forM_sound (steps : List Step) (hsound : s.tree.Sound) :
    Yields (steps.forM run) s fun _ after => after.tree.Sound :=
  Yields.forM (fun after => after.tree.Sound) hsound fun step _ _ hs => (step.run_sound hs).mono
    fun _ _ h => h.1

/-- Whatever steps the tree of a document has been taken through, a further step that ends normally
leaves it well linked and every node in its slot. -/
theorem Step.run_wellLinked {value source : Json} {document : Document}
    (hread : readDocument value source = .ok document) (report : Report) (steps : List Step)
    (step : Step)
    {before after : Session} (hsteps : steps.forM Step.run ⟨document.tree, report⟩ = .ok () before)
    (hstep : step.run before = .ok () after) : after.tree.WellLinked ∧
      before.tree.Keeps after.tree := by
  have hstart : (Session.mk document.tree report).tree.Sound := readDocument_sound hread
  have hbefore := Step.forM_sound steps hstart () before hsteps
  obtain ⟨hsound, hkeeps⟩ := step.run_sound hbefore () after hstep
  exact ⟨wellLinked_iff.mpr ⟨hsound.intact, hsound.top⟩, hkeeps⟩

/-! ## A sample -/

/-- `{ $context = new $Record(); $context.a = 1 + 2; if ($context.a) { } }` in the body of a
method. -/
def Json.captureSample : Json :=
  let context := nodeOf "Reference" [("name", .text "$context"), ("symbol", .int 1)]
  let captured := nodeOf "MemberAccess" [("target", context), ("name", .text "a")]
  let assign (left right : Json) := nodeOf "ExpressionStatement" [("expr",
    nodeOf "BinaryOp" [("op", .text "="), ("left", left), ("right", right)])]
  methodDocument
    [("1", .record [("kind", .text "Local"), ("name", .text "$context"),
      ("synthetic", .bool true)]),
      ("2", .record [("kind", .text "Constructor"), ("name", .text "$Record")])]
    [nodeOf "Block" [("statements", .list [
      assign context
        (nodeOf "Invocation"
          [("target", nodeOf "Reference" [("name", .text "$Record"), ("symbol", .int 2)])]),
      assign captured
        (nodeOf "BinaryOp" [("op", .text "+"), ("left", nodeOf "Literal" [("value", .int 1)]),
          ("right", nodeOf "Literal" [("value", .int 2)])]),
      nodeOf "If" [("cond", captured), ("then", nodeOf "Block" [])]])]]

def Step.runsWith (check : Tree → Tree → Bool) (value : Json) (step : Step) : Bool :=
  value.holds fun t => (Session.mk t (.ofVerbosity 0 none)).runsTo step.run fun _ after =>
    check t after.tree

theorem Step.exists_of_runsWith {check : Tree → Tree → Bool} {value : Json} {step : Step}
    (h : runsWith check value step = true) :
    ∃ document after, readDocument value .null = .ok document ∧
      step.run ⟨document.tree, .ofVerbosity 0 none⟩ = .ok () after ∧
        check document.tree after.tree = true := by
  obtain ⟨document, hread, h⟩ := Json.exists_of_holds h
  obtain ⟨_, after, hrun, h⟩ := Session.exists_of_runsTo h
  exact ⟨document, after, hread, hrun, h⟩

theorem Step.run_captureSample :
    ∃ document before after, readDocument Json.captureSample .null = .ok document ∧
      [Step.castValues].forM Step.run ⟨document.tree, .ofVerbosity 0 none⟩ = .ok () before ∧
        Step.inlineCaptures.run before = .ok () after ∧ before.tree.size < after.tree.size ∧
        after.tree.WellLinked ∧ before.tree.Keeps after.tree := by
  obtain ⟨document, hread, h⟩ := Json.exists_of_holds (show Json.captureSample.holds (fun t =>
    (Session.mk t (.ofVerbosity 0 none)).runsTo ([Step.castValues].forM Step.run) fun _ before =>
      before.runsTo Step.inlineCaptures.run fun _ after => before.tree.size < after.tree.size) =
        true by decide +kernel)
  obtain ⟨_, before, hsteps, h⟩ := Session.exists_of_runsTo h
  obtain ⟨_, after, hstep, hsize⟩ := Session.exists_of_runsTo h
  exact ⟨document, before, after, hread, hsteps, hstep, of_decide_eq_true hsize,
    Step.run_wellLinked hread _ [.castValues] .inlineCaptures hsteps hstep⟩

end UnitySharp
