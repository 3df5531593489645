import UnitySharp.Proofs.Switch.Lowered
import UnitySharp.Proofs.Tree.Renewed
import UnitySharp.Switch.Rebuild

/-!
# Renewals in a lowered switch

Before the statements of a lowered switch are rearranged, the subject may be replaced by a variable,
mentions of the temporary by copies of the subject, and jumps to the end by `break`.
-/

namespace UnitySharp

open UnitySharp.Tree Pass

variable {s : Session} {id old : NodeId}

namespace Pass

theorem renew_yields {new : Draft} {post : NodeId → Session → Prop} (htidy : s.tree.Tidy)
    (hold : s.tree.Standing old) (hlaid : new.Laid s.tree) (hparts : new.parts = [])
    (h : ∀ id after, Renewed (instead old id) s.tree after.tree → post id after) :
    Yields (Pass.replace old new) s post :=
  Yields.edit fun id _ hreplace => h id _ (replace_renewed htidy hold hlaid hparts hreplace)

theorem renewAll_yields {olds : List NodeId} (draft : Tree → NodeId → Draft) (htidy : s.tree.Tidy)
    (holds : ∀ a ∈ olds, s.tree.Standing a)
    (hdraft : ∀ f (middle : Session), Renewed f s.tree middle.tree → ∀ a ∈ olds,
      (draft middle.tree a).Laid middle.tree ∧ (draft middle.tree a).parts = []) :
    Yields (olds.forM fun old => do let _ ← Pass.replace old (draft (← Pass.tree) old)) s
      fun _ after => ∃ f, Renewed f s.tree after.tree := by
  refine Yields.forM (fun after => ∃ f, Renewed f s.tree after.tree) ⟨_, Renewed.refl _⟩ ?_
  rintro a ha middle ⟨f, hf⟩
  refine Yields.read ?_
  obtain ⟨hlaid, hparts⟩ := hdraft f middle hf a ha
  refine Yields.bind
    (renew_yields ((hf.undisturbed fun _ => False).tidy htidy) (hf.standing (holds a ha)) hlaid
      hparts fun id after hafter => Yields.pure ⟨_, hf.trans hafter⟩)

end Pass

namespace Switch

variable {temporary : Symbol} {subject : NodeId}

theorem breakOut_yields {gotos : List NodeId} (htidy : s.tree.Tidy)
    (hgotos : ∀ a ∈ gotos, s.tree.Standing a) :
    Yields (breakOut gotos) s fun _ after => ∃ f, Renewed f s.tree after.tree := by
  refine renewAll_yields (fun t goto => .fresh .breakStatement (t.position goto) []) htidy hgotos ?_
  intro f middle _ a _
  simp [Shape.kind, NodeKind.layout]

theorem restoreSubject_yields {statement : NodeId} (htidy : s.tree.Tidy)
    (hsubject : s.tree.Standing subject) (hstatement : s.tree.Standing statement) :
    Yields (restoreSubject temporary subject statement) s fun _ after =>
      ∃ f, Renewed f s.tree after.tree := by
  refine Yields.bind (Yields.child fun condition hcondition => ?_)
  refine Yields.read ?_
  have hconditionS := hstatement.child (mem_children_of_only? hcondition)
  refine renewAll_yields (fun t _ => t.copy subject) htidy ?_ ?_
  · intro a ha
    exact hconditionS.beneath (beneath_of_mem_walk (List.mem_filter.mp ha).1)
  · intro f middle hf a _
    have hnew :=
      copy_isNew ((hf.undisturbed fun _ => False).tidy htidy) (hf.standing hsubject).intact
    exact ⟨hnew.2 _, hnew.1⟩

theorem keepSubject_yields {assignment : NodeId} (htidy : s.tree.Tidy)
    (hassignment : s.tree.Standing assignment)
    (hsubject : s.tree.only? assignment .right = some subject) :
    Yields (keepSubject temporary assignment subject) s fun result after =>
      ∃ f, Renewed f s.tree after.tree ∧ f subject = result.2 ∧ result.2 ≠ subject ∧
        after.tree.parent result.2 = some assignment ∧
        ∃ symbol type, result.1 = .declaration symbol type (some (.kept subject)) none := by
  refine Yields.bind (Yields.typeAt fun found => ?_)
  refine Yields.bind (coin_yields fun symbol coined hnodes hloose hroot => ?_)
  have hcoined : Renewed (fun c => c) s.tree coined.tree :=
    Renewed.of_same_nodes (fun _ => Spared.of_same_store hnodes hloose hroot)
      (node_congr hnodes hloose)
  have htidy' := (hcoined.undisturbed fun _ => False).tidy htidy
  have hassignment' := hcoined.standing hassignment
  have honly : (coined.tree.node assignment).kid .right = .one subject := by
    rw [node_congr hnodes hloose]
    exact kid_of_only? hsubject
  refine Yields.bind (Yields.remove fun cut hcut => ?_)
  refine Yields.bind (Yields.put fun filled hfilled => ?_)
  obtain ⟨new, hnew, hfresh, hrenewed⟩ := exchange_renewed htidy' hassignment' honly hcut hfilled
    (by simp [Draft.ofSymbol, Shape.kind, NodeKind.layout]) (by simp [Draft.ofSymbol])
  refine Yields.bind (Yields.child fun found hfound => ?_)
  have heq : new = found := Option.some.inj (hnew.symm.trans hfound)
  subst heq
  have hne : new ≠ subject := by
    rintro rfl
    exact hfresh (hcoined.has (hassignment.child (mem_children_of_only? hsubject)).has)
  have hparent : filled.parent new = some assignment :=
    (hrenewed.standing hassignment').intact.parent_child (mem_children_of_only? hnew)
  exact Yields.pure ⟨_, hcoined.trans hrenewed, instead_self _ _, hne, hparent, _, _, rfl⟩

end Switch

end UnitySharp
