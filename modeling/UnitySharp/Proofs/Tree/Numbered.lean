import UnitySharp.Proofs.Pass.Edits
import UnitySharp.Proofs.Tree.WellLinked

/-!
# New subtrees

A draft of new nodes gets the next slots, each node before its children and children one after the
other.
-/

namespace UnitySharp

open List

inductive Draft.Fresh (P : Shape → Prop) : Draft → Prop where
  | node {shape : Shape} {position : Option Position} {kids : Kids Draft} (hshape : P shape)
      (hroles : kids.map Prod.fst = shape.kind.layout.map Prod.fst)
      (hkids : ∀ draft ∈ allKids kids, Draft.Fresh P draft) :
        Draft.Fresh P (.fresh shape position kids)

variable {P : Shape → Prop} {draft : Draft}

theorem Draft.Fresh.isNew (h : draft.Fresh P) : draft.IsNew := by
  induction h with
  | node _ hroles _ ih => exact Tree.isNew_fresh hroles ih

namespace Tree

variable {t u : Tree} {ids others : List NodeId} {n m k : Nat}

/-- The subtrees of some nodes, one after the other, fill the slots from one number up to another in
order. -/
inductive Spans (t : Tree) : List NodeId → Nat → Nat → Prop where
  | nil {n : Nat} : Spans t [] n n
  | cons {n m k : Nat} {rest : List NodeId} (hchildren : Spans t (t.children (.slot n)) (n + 1) m)
      (hrest : Spans t rest m k) : Spans t (.slot n :: rest) n k

namespace Spans

theorem le (h : t.Spans ids n k) : n ≤ k := by
  induction h with
  | nil => exact Nat.le_refl _
  | cons _ _ ih ihRest => omega

theorem append (h : t.Spans ids n m) (hothers : t.Spans others m k) :
    t.Spans (ids ++ others) n k := by
  induction h with
  | nil => exact hothers
  | cons hchildren _ _ ih => exact .cons hchildren (ih hothers)

theorem transfer (h : t.Spans ids n k)
    (hsame : ∀ i, n ≤ i → i < k → u.node (.slot i) = t.node (.slot i)) :
    u.Spans ids n k := by
  induction h with
  | nil => exact .nil
  | @cons n m k rest hchildren hrest ih ihRest =>
    have hle := hchildren.le
    have hle' := hrest.le
    refine .cons ?_ (ihRest fun i _ _ => hsame i (by omega) (by omega))
    rw [children, hsame n (Nat.le_refl n) (by omega)]
    exact ih fun i _ _ => hsame i (by omega) (by omega)

theorem walkStack_eq (h : t.Spans ids n k) {steps : Nat} (hsteps : k ≤ n + steps) :
    t.walkStack steps ids = (List.range' n (k - n)).map .slot := by
  induction steps generalizing ids n with
  | zero =>
    cases h with
    | nil => simp [walkStack]
    | cons hchildren hrest =>
      have hle := hchildren.le
      have hle' := hrest.le
      omega
  | succ steps ih =>
    cases h with
    | nil => simp [walkStack]
    | cons hchildren hrest =>
      have hle := hchildren.le
      have hle' := hrest.le
      have hgap : k - n = k - (n + 1) + 1 := by omega
      rw [walkStack, ih (hchildren.append hrest) (by omega), hgap, range'_succ]
      rfl

end Spans

/-- A tree has grown by new nodes, which have the next numbers. -/
structure Numbered (P : Shape → Prop) (t t' : Tree) (ids : List NodeId) : Prop where
  spans : t'.Spans ids t.size t'.size
  frame : ∀ i < t.size, t'.node (.slot i) = t.node (.slot i)
  loose : t'.loose = t.loose
  fresh : ∀ i < t'.size, t.size ≤ i → P (t'.shape (.slot i)) ∧ (t'.node (.slot i)).comments = []

theorem Numbered.node {shape : Shape} {position : Option Position} {up : Option NodeId}
    {kids : Kids NodeId} (hshape : P shape)
    (h : Numbered P (t.pushNode (bareNode shape position up)).2 u (allKids kids)) :
    Numbered P t (u.update (.slot t.size) fun node => { node with kids }) [.slot t.size] := by
  have hle := h.spans.le
  have hsize : (t.pushNode (bareNode shape position up)).2.size = t.size + 1 := size_pushNode t _
  have hown : (u.update (.slot t.size) fun node => { node with kids }).node (.slot t.size) =
      { bareNode shape position up with kids } := by
    have hhas : u.Has (.slot t.size) := show t.size < u.size by omega
    rw [node_update_self hhas, h.frame t.size (by omega)]
    exact congrArg (fun node : Node => { node with kids }) (node_pushNode_new t _)
  have hothers : ∀ i, i ≠ t.size → (u.update (.slot t.size) fun node => { node with kids }).node
      (.slot i) = u.node (.slot i) := fun i hne => node_update_ne u (by simpa using hne) _
  refine ⟨?_, fun i hi => ?_, h.loose, fun i hi hnew => ?_⟩
  · rw [size_update]
    refine .cons ?_ .nil
    rw [children, hown]
    exact (hsize ▸ h.spans).transfer fun i hi _ => hothers i (by omega)
  · rw [hothers i (by omega), h.frame i (by omega)]
    exact node_pushNode_old (show t.Has (.slot i) from hi) _
  · rw [size_update] at hi
    by_cases heq : i = t.size
    · rw [heq, Tree.shape, hown]
      exact ⟨hshape, rfl⟩
    · rw [Tree.shape, hothers i heq]
      exact h.fresh i hi (by omega)

theorem Numbered.refl (P : Shape → Prop) (t : Tree) : Numbered P t t [] :=
  ⟨.nil, fun _ _ => rfl, rfl, fun i hi hnew => absurd hnew (by omega)⟩

theorem Numbered.trans {v : Tree} (h : Numbered P t u ids) (h' : Numbered P u v others) :
    Numbered P t v (ids ++ others) := by
  have hle := h.spans.le
  refine ⟨(h.spans.transfer fun i _ hi => h'.frame i hi).append h'.spans, fun i hi => ?_,
    h'.loose.trans h.loose, ?_⟩
  · rw [h'.frame i (by omega), h.frame i hi]
  · intro i hi hnew
    by_cases hold : i < u.size
    · rw [Tree.shape, h'.frame i hold]
      exact h.fresh i hold hnew
    · exact h'.fresh i hi (by omega)

mutual

/-- New nodes get the next slots in the order of a walk. -/
theorem plant_numbered (up : Option NodeId) : (draft : Draft) → (t : Tree) → draft.Fresh P →
    Numbered P t (t.plant up draft).2 [(t.plant up draft).1]
  | .fresh shape position kids, t, .node hshape _ hkids => by
      simp only [plant]
      exact .node hshape (plantKids_numbered _ kids _ hkids)

theorem plantKids_numbered (p : NodeId) : (kids : List (Role × Occupants Draft)) → (t : Tree) →
    (∀ draft ∈ allKids kids, draft.Fresh P) →
      Numbered P t (t.plantKids p kids).2 (allKids (t.plantKids p kids).1)
  | [], t, _ => .refl P t
  | (role, occupants) :: rest, t, hkids => by
      rw [allKids_cons, forall_mem_append] at hkids
      simp only [plantKids, allKids_cons]
      exact (plantOccupants_numbered p occupants t hkids.1).trans
        (plantKids_numbered p rest _ hkids.2)

theorem plantOccupants_numbered (p : NodeId) : (occupants : Occupants Draft) → (t : Tree) →
    (∀ draft ∈ occupants.toList, draft.Fresh P) →
      Numbered P t (t.plantOccupants p occupants).2 (t.plantOccupants p occupants).1.toList
  | .empty, t, _ => .refl P t
  | .one draft, t, hall => plant_numbered (some p) draft t (hall draft mem_cons_self)
  | .many drafts, t, hall => plantAll_numbered p drafts t hall

theorem plantAll_numbered (p : NodeId) : (drafts : List Draft) → (t : Tree) →
    (∀ draft ∈ drafts, draft.Fresh P) → Numbered P t (t.plantAll p drafts).2 (t.plantAll p drafts).1
  | [], t, _ => .refl P t
  | draft :: rest, t, hall => by
      rw [forall_mem_cons] at hall
      simp only [plantAll]
      exact (plant_numbered (some p) draft t hall.1).trans (plantAll_numbered p rest _ hall.2)

end

def Plain (P : Shape → Prop) (t : Tree) : Prop :=
  ∀ a, t.Has a → P (t.shape a) ∧ (t.node a).comments = []

section

variable (h : draft.Fresh P) (path : Name) (source : Json)
include h

theorem sound_ofDraft : (ofDraft draft path source).Sound := by
  have hplanted := plant_planted { (default : Tree) with path, source } none draft
    (by rw [h.isNew.1]; exact ⟨by simp, List.Pairwise.nil⟩) (h.isNew.2 _)
  refine ⟨?_, ?_, ?_⟩
  · intro id hid
    refine hplanted.fresh id hid fun hbefore => ?_
    cases id with
    | slot n => exact absurd hbefore (Nat.not_lt_zero n)
    | loose n => exact absurd hbefore (Nat.not_lt_zero n)
  · exact (hplanted.intact _ mem_cons_self).of_same_nodes (fun _ => id) fun _ _ => rfl
  · exact hplanted.linked _ mem_cons_self

theorem plain_ofDraft : (ofDraft draft path source).Plain P := by
  have hnumbered := plant_numbered none draft { (default : Tree) with path, source } h
  intro a ha
  cases a with
  | slot n => exact hnumbered.fresh n ha (Nat.zero_le n)
  | loose n =>
    have hnone : (ofDraft draft path source).loose.size = 0 := congrArg Array.size hnumbered.loose
    have hlt : n < (ofDraft draft path source).loose.size := ha
    omega

theorem walk_ofDraft : (ofDraft draft path source).walk (ofDraft draft path source).root =
    (List.range (ofDraft draft path source).size).map .slot := by
  have hintact := (sound_ofDraft h path source).intact
  have hspans := (plant_numbered none draft { (default : Tree) with path, source } h).spans
  replace hspans : (ofDraft draft path source).Spans [(ofDraft draft path source).root] 0
      (ofDraft draft path source).size := hspans.transfer fun _ _ _ => rfl
  generalize ofDraft draft path source = t at hintact hspans
  rw [← hintact.walkStack_eq_walk (Nat.le_add_left _ t.size), hspans.walkStack_eq (by omega),
    Nat.sub_zero, range_eq_range']

end

end Tree

end UnitySharp
