import UnitySharp.Proofs.Pass.Casts

/-!
# Steps taken twice

Half of the steps reach in one run a tree on which they have nothing more to do.
-/

namespace UnitySharp

open UnitySharp.Tree Pass

def Step.settling : List Step :=
  [.restoreOperators, .takeTypesAsValues, .restoreIndexers, .qualifyStaticMembers, .castValues,
    .castEnums, .declareIterators, .testForTruth, .escapeReservedWords, .widenTypeAccess]

theorem Pass.Settling.quiet {pass : Pass Unit} {s : Session} (h : Settling pass s) :
    Yields pass s fun _ after => Quiet pass after.tree :=
  Yields.mono h fun _ _ h => h.2

/-- On any sound tree, a step that comes to rest does nothing when it is taken again.  Where it
escapes reserved words, the table of renamed types has to hold escapes of such words alone, as the
step itself leaves it; where it casts values, no operator may stand for the return type of a
method. -/
theorem Step.run_again {step : Step} (hstep : step ∈ Step.settling) {before after : Session}
    (hsound : before.tree.Sound)
    (hrenamed : step = .escapeReservedWords → ReservedWords.Renames before.tree.renamed)
    (hplain : step = .castValues → ∀ id type, before.tree.Beneath before.tree.root id →
      (before.tree.kind id).isMethod = true → before.tree.only? id .returnType = some type →
        before.tree.kind type ≠ .binary)
    (hrun : step.run before = .ok () after) (report : Report) :
    step.run ⟨after.tree, report⟩ = .ok () ⟨after.tree, report⟩ := by
  have hsettles : Yields step.run before fun _ after => Quiet step.run after.tree := by
    cases step with
    | restoreOperators => exact (OperatorCalls.everywhere_settles hsound).quiet
    | takeTypesAsValues => exact (TypeValues.everywhere_settles hsound).quiet
    | restoreIndexers => exact (Indexers.everywhere_settles hsound).quiet
    | qualifyStaticMembers => exact (StaticMembers.everywhere_settles hsound).quiet
    | castValues => exact Yields.mono (Casts.valueRule_settles hsound) fun _ _ h => h.2 (hplain rfl)
    | castEnums => exact (Casts.enumRule_settles hsound).quiet
    | declareIterators => exact (Iterators.everywhere_settles hsound).quiet
    | testForTruth => exact (TruthTests.everywhere_settles hsound).quiet
    | escapeReservedWords =>
      exact Yields.mono (ReservedWords.pass_settles hsound) fun _ _ h => h.2 (hrenamed rfl)
    | widenTypeAccess => exact (TypeAccess.everywhere_settles hsound).quiet
    | _ => exact absurd hstep (by decide)
  exact hsettles () after hrun report

/-! ## Samples -/

/-- A class `event` with a method that refers to it and to a parameter `lock`. -/
def Json.reservedSample : Json :=
  .record [("symbols", .record [("1", .record [("kind", .text "Type"), ("name", .text "event")]),
      ("2", .record [("kind", .text "Parameter"), ("name", .text "lock")])]),
    ("module", nodeOf "Module" [("members", .list [nodeOf "TypeDef" [("name", .text "event"),
      ("members", .list [nodeOf "Method" [("name", .text "M"),
        ("params", .list [nodeOf "Parameter" [("name", .text "lock"),
          ("type_ref", nodeOf "TypeRef" [("type", .text "object")]), ("symbol", .int 2)]]),
        ("body", nodeOf "Block" [("statements", .list [nodeOf "ExpressionStatement" [("expr",
          nodeOf "BinaryOp" [("op", .text "=="),
            ("left", nodeOf "Reference" [("name", .text "lock"), ("symbol", .int 2)]),
            ("right",
              nodeOf "Reference" [("name", .text "event"), ("symbol", .int 1)])])]])])]])]])])]

/-- Casts are put in, names are escaped, and a second run of either step changes nothing. -/
theorem Step.run_again_samples :
    (∃ document after, readDocument Json.castSample .null = .ok document ∧
      Step.castValues.run ⟨document.tree, .ofVerbosity 0 none⟩ = .ok () after ∧
        document.tree.size < after.tree.size ∧
          ∀ report, Step.castValues.run ⟨after.tree, report⟩ = .ok () ⟨after.tree, report⟩) ∧
    ∃ document after, readDocument Json.reservedSample .null = .ok document ∧
      Step.escapeReservedWords.run ⟨document.tree, .ofVerbosity 0 none⟩ = .ok () after ∧
        document.tree.renamed = [] ∧ after.tree.renamed = [("event", "@event")] ∧
          ∀ report, Step.escapeReservedWords.run ⟨after.tree, report⟩ = .ok
    () ⟨after.tree, report⟩ := by
  constructor
  · obtain ⟨document, after, hread, hrun, hcheck⟩ := Step.exists_of_runsWith
      (show Step.runsWith (fun s t => s.returnsPlain && decide (s.size < t.size)) Json.castSample
        .castValues = true by
        decide +kernel)
    rw [Bool.and_eq_true, decide_eq_true_eq] at hcheck
    have hsound := readDocument_sound hread
    exact ⟨document, after, hread, hrun, hcheck.2,
      Step.run_again (by decide) hsound (fun h => by cases h) (fun _ _ _ hbelow hmethod htype =>
        ne_binary_of_returnsPlain hcheck.1 hsound hbelow hmethod htype) hrun⟩
  · obtain ⟨document, after, hread, hrun, hcheck⟩ := Step.exists_of_runsWith
      (show Step.runsWith (fun s t => decide (s.renamed = [] ∧ t.renamed = [("event", "@event")]))
        Json.reservedSample .escapeReservedWords = true by decide +kernel)
    rw [decide_eq_true_eq] at hcheck
    have hrenames : ReservedWords.Renames document.tree.renamed := by
      simp [hcheck.1, ReservedWords.Renames]
    exact ⟨document, after, hread, hrun, hcheck.1, hcheck.2,
      Step.run_again (by decide) (readDocument_sound hread) (fun _ => hrenames)
      (fun h => by cases h) hrun⟩

/-- With an operator for a return type, a `return` that comes before it may get its cast only in a
second run. -/
theorem Step.castValues_earlyReturn : ∃ document middle after,
    readDocument Json.earlyReturnSample .null = .ok document ∧
      Step.castValues.run ⟨document.tree, .ofVerbosity 0 none⟩ = .ok () middle ∧
        Step.castValues.run middle = .ok () after ∧ after.tree ≠ middle.tree := by
  obtain ⟨document, hread, h⟩ := Json.exists_of_holds (show Json.earlyReturnSample.holds (fun t =>
    (Session.mk t (.ofVerbosity 0 none)).runsTo Step.castValues.run fun _ middle =>
      middle.runsTo Step.castValues.run fun _ after => middle.tree.size < after.tree.size) = true by
        decide +kernel)
  obtain ⟨_, middle, hfirst, h⟩ := Session.exists_of_runsTo h
  obtain ⟨_, after, hsecond, hsize⟩ := Session.exists_of_runsTo h
  refine ⟨document, middle, after, hread, hfirst, hsecond, fun hsame => ?_⟩
  rw [hsame, decide_eq_true_eq] at hsize
  exact Nat.lt_irrefl _ hsize

end UnitySharp
