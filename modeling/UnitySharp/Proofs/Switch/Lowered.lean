import UnitySharp.Proofs.Pass.Edits
import UnitySharp.Switch.Lowered

/-!
# The form of lowered switches

How the statements of a lowered switch fall into the one that sets the temporary, the cases, the
default and the label, and what the condition of a case consists of.
-/

namespace UnitySharp

open List

namespace Tree

variable {t : Tree} {temporary : Symbol} {id c label block : NodeId} {labels : List (Option NodeId)}
  {lowered : LoweredSwitch}

/-! ## Conditions -/

/-- What a condition compares with: an equality with what stands on its right if that can be a
label, several joined by `or` with what each of them does. -/
inductive Compares (t : Tree) : NodeId → List (Option NodeId) → Prop where
  | equality {condition : NodeId} {label : Option NodeId}
      (hlabel : ∀ found, label = some found → t.only? condition .right = some found) :
        Compares t condition [label]
  | either {condition left right : NodeId} {before after : List (Option NodeId)}
      (hleft : t.only? condition .left = some left) (hright : t.only? condition .right = some right)
      (hbefore : Compares t left before) (hafter : Compares t right after) :
        Compares t condition (before ++ after)

theorem comparedLabel?_ok (h : t.comparedLabel? id = .ok (some label)) :
    t.only? id .right = some label := by
  unfold comparedLabel? at h
  split at h
  · rename_i right hright
    obtain ⟨isConstant, _, h⟩ := Except.map_eq_ok h
    split at h
    · rw [hright, h]
    · exact absurd h (by simp)
  · exact absurd h (by simp)

theorem comparisonsWithin_ok {depth : Nat} {condition : Option NodeId}
    (h : t.comparisonsWithin temporary depth condition = .ok (some labels)) :
    ∃ id, condition = some id ∧ t.Compares id labels := by
  induction depth generalizing condition labels with
  | zero => simp [comparisonsWithin] at h
  | succ depth ih =>
    cases condition with
    | none => simp [comparisonsWithin] at h
    | some id =>
      refine ⟨id, rfl, ?_⟩
      unfold comparisonsWithin at h
      split at h
      · split at h
        · obtain ⟨before, hbefore, h⟩ := Except.bind_eq_ok h
          cases before with
          | none => exact absurd h (by simp)
          | some before =>
            obtain ⟨after, hafter, h⟩ := Except.bind_eq_ok h
            cases after with
            | none => exact absurd h (by simp)
            | some after =>
              obtain ⟨left, hleft, hbefore⟩ := ih hbefore
              obtain ⟨right, hright, hafter⟩ := ih hafter
              have heq : before ++ after = labels := by simpa using h
              exact heq ▸ .either hleft hright hbefore hafter
        · split at h
          · obtain ⟨label, hlabel, h⟩ := Except.bind_eq_ok h
            have heq : [label] = labels := by simpa using h
            refine heq ▸ .equality ?_
            rintro found rfl
            exact comparedLabel?_ok hlabel
          · exact absurd h (by simp)
      · exact absurd h (by simp)

theorem Compares.label_within (h : t.Compares id labels) (hid : t.Intact id)
    (hlabel : some label ∈ labels) :
    t.Within id label := by
  induction h with
  | equality hcompared =>
    exact hid.within_of_child
      (mem_children_of_only? (hcompared label (mem_singleton.mp hlabel).symm)) Beneath.refl
  | either hleft hright _ _ ihbefore ihafter =>
    have hl := mem_children_of_only? hleft
    have hr := mem_children_of_only? hright
    rcases mem_append.mp hlabel with hlabel | hlabel
    · exact hid.within_of_child hl (ihbefore (hid.child hl) hlabel).1
    · exact hid.within_of_child hr (ihafter (hid.child hr) hlabel).1

theorem Compares.labels_apart (h : t.Compares id labels) (hid : t.Intact id) :
    (labels.filterMap (fun label => label)).Pairwise t.Apart := by
  induction h with
  | @equality _ label _ => cases label <;> simp
  | either hleft hright hbefore hafter ihbefore ihafter =>
    have hl := mem_children_of_only? hleft
    have hr := mem_children_of_only? hright
    rw [filterMap_append]
    refine pairwise_append.mpr ⟨ihbefore (hid.child hl), ihafter (hid.child hr), ?_⟩
    intro x hx y hy a hxa hya
    rw [mem_filterMap] at hx hy
    obtain ⟨_, hx, rfl⟩ := hx
    obtain ⟨_, hy, rfl⟩ := hy
    exact hid.siblings_apart hl hr (only?_ne hid (by decide) hleft hright)
      ((hbefore.label_within (hid.child hl) hx).1.trans hxa)
      ((hafter.label_within (hid.child hr) hy).1.trans hya)

/-! ## Cases -/

/-- The labels of a case are those that its condition compares with. -/
def ReadsCase (t : Tree) (read : SwitchCase) : Prop :=
  ∃ condition compared, t.only? read.statement .condition = some condition ∧
    t.Compares condition compared ∧ read.labels = compared.filterMap fun label => label

theorem switchCase?_ok {statement : NodeId} {read : SwitchCase}
    (h : t.switchCase? temporary statement = .ok (some read)) : read.statement = statement ∧
      t.ReadsCase read := by
  unfold switchCase? at h
  split at h
  · obtain ⟨found, hfound, h⟩ := Except.map_eq_ok h
    obtain ⟨compared, rfl, hread⟩ := Option.map_eq_some_iff.mp h
    obtain ⟨condition, hcondition, hcompares⟩ := comparisonsWithin_ok hfound
    subst hread
    exact ⟨rfl, condition, compared, hcondition, hcompares, rfl⟩
  · exact absurd h (by simp)

theorem leadingCases_ok {statements : List NodeId} {cases : List SwitchCase}
    (h : t.leadingCases temporary statements = .ok cases) :
    statements = cases.map SwitchCase.statement ++ statements.drop cases.length ∧ ∀ read ∈ cases,
      t.ReadsCase read := by
  induction statements generalizing cases with
  | nil =>
    cases h
    simp
  | cons statement rest ih =>
    unfold leadingCases at h
    obtain ⟨found, hfound, h⟩ := Except.bind_eq_ok h
    cases found with
    | none =>
      cases h
      simp
    | some read =>
      obtain ⟨others, hothers, h⟩ := Except.bind_eq_ok h
      cases h
      obtain ⟨hsplit, hreads⟩ := ih hothers
      obtain ⟨rfl, hread⟩ := switchCase?_ok hfound
      refine ⟨by simp [← hsplit], ?_⟩
      intro other hother
      rcases mem_cons.mp hother with rfl | hother
      · exact hread
      · exact hreads other hother

/-! ## Blocks -/

/-- The statements of a lowered switch: the one that sets the temporary, the cases, the default and
the label. -/
structure Lowers (t : Tree) (lowered : LoweredSwitch) (first last : NodeId) : Prop where
  listed : t.listed lowered.block .statements =
    first :: (lowered.cases.map SwitchCase.statement ++ lowered.defaults ++ [last])
  cases : ∀ read ∈ lowered.cases, t.ReadsCase read

theorem loweredOver?_ok {first : NodeId} {rest : List NodeId} {endLabel : Name}
    (h : t.loweredOver? block first temporary rest endLabel = .ok (some lowered)) :
    lowered.block = block ∧ rest = lowered.cases.map SwitchCase.statement ++ lowered.defaults ∧
      ∀ read ∈ lowered.cases, t.ReadsCase read := by
  unfold loweredOver? at h
  obtain ⟨cases, hcases, h⟩ := Except.bind_eq_ok h
  split at h
  · exact absurd h (by simp)
  · obtain ⟨fits, _, h⟩ := Except.bind_eq_ok h
    cases fits with
    | false => exact absurd h (by simp)
    | true =>
      obtain ⟨buried, _, h⟩ := Except.bind_eq_ok h
      cases buried with
      | true => exact absurd h (by simp)
      | false =>
        cases h
        exact ⟨rfl, leadingCases_ok hcases⟩

theorem loweredSwitch?_ok (h : t.loweredSwitch? block = .ok (some lowered)) :
    lowered.block = block ∧ ∃ first last, t.Lowers lowered first last := by
  unfold loweredSwitch? at h
  split at h
  · rename_i first second third others hlisted
    simp only at h
    obtain ⟨found, hfound, h⟩ := Except.bind_eq_ok h
    split at h
    · rename_i temporary endLabel hlabel
      obtain ⟨last, hlast, _⟩ := Option.bind_eq_some_iff.mp hlabel
      obtain ⟨rfl, hrest, hcases⟩ := loweredOver?_ok h
      refine ⟨rfl, first, last, ?_, hcases⟩
      rw [hlisted, ← hrest, dropLast_append_getLast? last hlast]
    · exact absurd h (by simp)
  · exact absurd h (by simp)

end Tree

end UnitySharp
