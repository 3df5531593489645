import UnitySharp.Proofs.Convert.Linked

/-!
# Statements that evaluate assignments

A statement that is an `Eval` of assignments gives way to a block with one statement for each of
them, in which the temporaries are locals.
-/

namespace UnitySharp

open UnitySharp.Tree Pass

namespace ValueType

/-- A statement that evaluates assignments becomes a block of them, and it does so if each of them
can be carried out. -/
theorem assignmentRule_expands {s : Session} {statement expression : NodeId} (hsound : s.tree.Sound)
    (hstatement : s.tree.Reachable statement) (hkind : s.tree.kind statement = .expressionStatement)
    (hexpression : s.tree.only? statement .expression = some expression)
    (heval : isEvalOfAssignments s.tree expression = true) (visit : NodeId → Pass Unit) :
    (∀ after, assignmentRule visit statement s = .ok () after →
      Expanded s.tree after.tree statement (s.tree.listed expression .arguments)) ∧
    (statement ≠ s.tree.root →
      (∀ step ∈ s.tree.listed expression .arguments, isEvaluable s.tree step = true) → ∃ after,
      assignmentRule visit statement s = .ok () after) := by
  have hstands : s.tree.Standing statement := hsound.standing.beneath hstatement
  have hrule :
    assignmentRule visit statement s = expand statement (s.tree.listed expression .arguments)
    s := by
    have hfound : (s.tree.only? statement .expression).filter (isEvalOfAssignments s.tree) =
      some expression := by
      rw [hexpression, Option.filter_some, if_pos heval]
    unfold assignmentRule
    rw [run_tree]
    simp only [hkind, hfound]
  simp only [isEvalOfAssignments, Bool.and_eq_true, Bool.not_eq_true',
    List.isEmpty_eq_false_iff] at heval
  have htop : s.tree.parent statement = none → statement = s.tree.root := by
    intro hnone
    by_contra hroot
    obtain ⟨up, hup, _⟩ := hsound.intact.holder ⟨hstatement, hroot⟩
    rw [hnone] at hup
    cases hup
  have hends : EndsUnless
      (statement = s.tree.root ∨ ∃ step ∈ s.tree.listed expression .arguments,
        isEvaluable s.tree step = false)
      (expand statement (s.tree.listed expression .arguments)) s fun _ after =>
        Expanded s.tree after.tree statement (s.tree.listed expression .arguments) :=
    expand_ends hsound.tidy hstands hexpression heval.1.2 (List.all_eq_true.mp heval.2)
      (fun step hstep hbad => Or.inr ⟨step, hstep, hbad⟩) fun hnone => Or.inl (htop hnone)
  rw [hrule]
  constructor
  · intro after hrun
    exact hends.yields () after hrun
  · intro hroot hsteps
    obtain ⟨_, after, hrun, _⟩ := hends.ends (by
      rintro (htop | ⟨step, hstep, hbad⟩)
      · exact hroot htop
      · rw [hsteps step hstep] at hbad
        cases hbad)
    exact ⟨after, hrun⟩

end ValueType

/-- `Eval($1 = a.b, $1.x = f($1), $1 = $1.c, a.b = $1)` in the body of a method. -/
def Json.evaluationSample : Json :=
  let name (text : String) := nodeOf "Reference" [("name", .text text)]
  let member (target : Json) (text : String) :=
    nodeOf "MemberAccess" [("target", target), ("name", .text text)]
  let assign (left right : Json) :=
    nodeOf "BinaryOp" [("op", .text "="), ("left", left), ("right", right)]
  let call := nodeOf "Invocation" [("target", name "f"), ("args", .list [name "$1"])]
  methodDocument [("1", .record [("kind", .text "Builtin"), ("name", .text "Eval")])]
    [nodeOf "ExpressionStatement" [("expr", nodeOf "Invocation" [
      ("target", nodeOf "Reference" [("name", .text "Eval"), ("symbol", .int 1)]),
      ("args", .list [assign (name "$1") (member (name "a") "b"),
        assign (member (name "$1") "x") call, assign (name "$1") (member (name "$1") "c"),
        assign (member (name "a") "b") (name "$1")])])]]

namespace ValueType

theorem assignmentRule_evaluationSample : ∃ document statement expression after,
    readDocument Json.evaluationSample .null = .ok document ∧
      (document.tree.listed expression .arguments).length = 4 ∧
        assignmentRule (fun _ => pure ()) statement ⟨document.tree, .ofVerbosity 0 none⟩ =
          .ok () after ∧
          Expanded document.tree after.tree statement
    (document.tree.listed expression .arguments) := by
  obtain ⟨document, hread, h⟩ := Json.exists_of_holds (show Json.evaluationSample.holds (fun t =>
    (t.walk t.root).any fun id => t.kind id == .expressionStatement && id != t.root &&
      (t.only? id .expression).any fun expression => isEvalOfAssignments t expression &&
        (t.listed expression .arguments).all (isEvaluable t) &&
          (t.listed expression .arguments).length == 4) = true by
    decide +kernel)
  simp only [List.any_eq_true, Bool.and_eq_true, beq_iff_eq, bne_iff_ne, Option.any_eq_true,
    List.all_eq_true] at h
  obtain ⟨statement, hmem, ⟨hkind, hroot⟩, expression, hexpression, ⟨heval, hsteps⟩, hcount⟩ := h
  have hsound : (Session.mk document.tree (.ofVerbosity 0 none)).tree.Sound :=
    readDocument_sound hread
  obtain ⟨hexpands, hruns⟩ :=
    assignmentRule_expands hsound (beneath_of_mem_walk hmem) hkind hexpression heval fun _ =>
      pure ()
  obtain ⟨after, hrun⟩ := hruns hroot hsteps
  exact ⟨document, statement, expression, after, hread, hcount, hrun, hexpands after hrun⟩

end ValueType

end UnitySharp
