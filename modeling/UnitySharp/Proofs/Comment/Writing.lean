import Mathlib.Algebra.Order.BigOperators.Group.List
import Mathlib.Algebra.Order.Group.Nat
import UnitySharp.Proofs.Code.Notes
import UnitySharp.Proofs.Comment.Attaching

/-!
# How often comments are written

Laying marks out comes down to calls to the writer, mark by mark, and the calls for a comment pass
on its text.  No node is visited twice, so comments are written no more often than the nodes carry
them.
-/

namespace UnitySharp

open List

variable {wanted : Comment → Bool} {index : Nat} {w : Writer} {marks : List Mark} {t : Tree}
  {c : Comment}

def Mark.writes (wanted : Comment → Bool) : Mark → Bool
  | .comment c => c.anchor != .none && wanted c
  | _ => false

/-! ## Calls to the writer -/

inductive Call where
  | write (s : String)
  | writeName (name : Name)
  | trail (s : String)
  | newline
  | indent
  | dedent

def Writer.call? (w : Writer) : Call → Option Writer
  | .write s => some (w.write s)
  | .writeName name => some (w.writeName name)
  | .trail s => some (w.trail s)
  | .newline => some w.newline
  | .indent => some w.indent
  | .dedent => w.dedent?

namespace Comment

def lineCalls (c : Comment) : List Call :=
  (commentLines c.text).flatMap fun line => [.write line, .newline]

/-- The calls that write a comment.  At the start of a line it may stand above the line, as lines of
its own; otherwise it stands inside the line or at its end. -/
def calls (c : Comment) (atLineStart : Bool) : List Call :=
  match c.anchor with
  | .above => if atLineStart then c.lineCalls else [.write (c.inlineText ++ " ")]
  | .left => [.write (c.inlineText ++ " ")]
  | .right => [.trail c.text]
  | .none => []

/-- Calls that pass the text of a comment on, in one of the forms it can have. -/
def Passed (c : Comment) (calls : List Call) : Prop :=
  calls = c.lineCalls ∨ calls = [.write (c.inlineText ++ " ")] ∨ calls = [.trail c.text]

theorem passed_calls {d : Comment} {atLineStart : Bool} (htext : d.text = c.text)
    (hkind : d.kind = c.kind) (hanchor : d.anchor ≠ .none) : c.Passed (d.calls atLineStart) := by
  have hlines : d.lineCalls = c.lineCalls := by rw [lineCalls, lineCalls, htext]
  have hinline : d.inlineText = c.inlineText := by rw [inlineText, inlineText, htext, hkind]
  unfold calls
  cases hside : d.anchor with
  | none => exact absurd hside hanchor
  | above =>
    dsimp only
    split
    · exact Or.inl hlines
    · exact Or.inr (Or.inl (by rw [hinline]))
  | left => exact Or.inr (Or.inl (by rw [hinline]))
  | right => exact Or.inr (Or.inr (by rw [htext]))

end Comment

def Mark.calls (atLineStart : Bool) : Mark → List Call
  | .text s => [.write s]
  | .name word => [.writeName word]
  | .line => [.newline]
  | .indent => [.indent]
  | .dedent => [.dedent]
  | .comment c => c.calls atLineStart
  | .unsupported _ => []

namespace Writer

variable {after : Writer} {mark : Mark} {calls : List Call}

/-- The marks in their order, each with the calls it comes down to where it is laid out. -/
def log (w : Writer) : List Mark → List (Mark × List Call)
  | [] => []
  | mark :: rest =>
    (mark, mark.calls w.atLineStart) ::
      match w.put? mark with
      | some next => next.log rest
      | none => []

/-- A writer without its memory of the comments it has written. -/
def unaware (w : Writer) : Writer :=
  { w with written := [] }

theorem unaware_write (w : Writer) (s : String) : w.unaware.write s = (w.write s).unaware := by
  unfold write unaware
  split
  · rfl
  · dsimp only
    split <;> rfl

theorem unaware_writeName (w : Writer) (name : Name) :
    w.unaware.writeName name = (w.writeName name).unaware := by
  unfold writeName
  split
  · exact unaware_write w _
  · split <;> rfl

theorem text_finish_unaware (w : Writer) : w.unaware.finish.text = w.finish.text := by
  unfold finish
  change (if (!w.trailing.isEmpty || !w.atLineStart) = true then _ else _ : Writer).text = _
  split <;> rfl

theorem call?_lines (lines : List String) (w : Writer) :
    (lines.flatMap fun line => [Call.write line, .newline]).foldlM call? w =
      some (lines.foldl (fun w line => (w.write line).newline) w) := by
  induction lines generalizing w with
  | nil => rfl
  | cons line rest ih => exact ih _

theorem unaware_lines (lines : List String) (w : Writer) :
    lines.foldl (fun w line => (w.write line).newline) w.unaware =
      (lines.foldl (fun w line => (w.write line).newline) w).unaware := by
  induction lines generalizing w with
  | nil => rfl
  | cons line rest ih =>
    rw [foldl_cons, foldl_cons, unaware_write]
    exact ih ((w.write line).newline)

/-- Writing a comment makes the calls for it and nothing else, but for the memory of it. -/
theorem calls_comment (w : Writer) (c : Comment) :
    (c.calls w.atLineStart).foldlM call? w.unaware = some (w.comment c).unaware := by
  unfold Comment.calls comment
  cases c.anchor with
  | none => rfl
  | above =>
    dsimp only
    split
    · rw [Comment.lineCalls, call?_lines, unaware_lines]
      rfl
    · change some (w.unaware.write _) = _
      rw [unaware_write]
      rfl
  | left =>
    change some (w.unaware.write _) = _
    rw [unaware_write]
    rfl
  | right => rfl

theorem calls_put? (h : w.put? mark = some after) :
    (mark.calls w.atLineStart).foldlM call? w.unaware = some after.unaware := by
  cases mark with
  | comment c =>
    cases h
    exact calls_comment w c
  | dedent =>
    change w.unaware.dedent?.bind some = _
    simp only [put?, dedent?] at h
    split at h
    · cases h
    · rename_i hlevel
      cases h
      rw [dedent?, if_neg (show ¬w.unaware.level = 0 from hlevel)]
      rfl
  | text s =>
    cases h
    exact congrArg some (unaware_write w s)
  | name name =>
    cases h
    exact congrArg some (unaware_writeName w name)
  | line | indent | unsupported =>
    cases h
    rfl

/-- Laying marks out comes down to the calls of their log. -/
theorem calls_putAll? (h : w.putAll? marks = some after) :
    ((w.log marks).flatMap Prod.snd).foldlM call? w.unaware = some after.unaware := by
  induction marks generalizing w with
  | nil =>
    cases h
    rfl
  | cons mark rest ih =>
    simp only [putAll?] at h
    split at h
    · cases h
    · rename_i next hput
      rw [log, hput, flatMap_cons, foldlM_append, calls_put? hput]
      exact ih h

/-! ## The writer's memory -/

/-- What has been called for the comment with an index. -/
def passings (index : Nat) (log : List (Mark × List Call)) : List (List Call) :=
  (log.filter fun entry => entry.1.writes (Comment.hasIndex index)).map Prod.snd

@[simp] theorem written_write (w : Writer) (s : String) : (w.write s).written = w.written := by
  unfold write
  split
  · rfl
  · split <;> rfl

theorem written_writeName (w : Writer) (name : Name) : (w.writeName name).written = w.written := by
  unfold writeName
  split
  · exact written_write w _
  · split <;> rfl

theorem written_lines (lines : List String) (w : Writer) :
    (lines.foldl (fun w line => (w.write line).newline) w).written = w.written := by
  induction lines generalizing w with
  | nil => rfl
  | cons line rest ih =>
    rw [foldl_cons, ih]
    exact written_write w line

theorem written_finish (w : Writer) : w.finish.written = w.written := by
  unfold finish
  split <;> rfl

theorem written_put? (h : w.put? mark = some after) : after.written.count index =
    w.written.count index + if mark.writes (Comment.hasIndex index) then 1 else 0 := by
  cases mark with
  | comment c =>
    cases h
    have hwrites : (Mark.comment c).writes (Comment.hasIndex index) =
      (c.anchor != .none && c.index == index) := rfl
    rw [hwrites]
    unfold comment
    cases hanchor : c.anchor with
    | none => simp
    | above =>
      by_cases hstart : w.atLineStart
      · simp [hstart, credit, written_lines, count_singleton]
      · simp [hstart, credit, count_singleton]
    | left => simp [credit, count_singleton]
    | right => simp [credit, trail, count_singleton]
  | dedent =>
    simp only [put?, dedent?] at h
    split at h
    · cases h
    · cases h
      rfl
  | text s =>
    cases h
    rw [written_write]
    rfl
  | name name =>
    cases h
    rw [written_writeName]
    rfl
  | line | indent | unsupported =>
    cases h
    rfl

/-- The writer remembers a comment as often as calls have been made for it. -/
theorem length_passings (h : w.putAll? marks = some after) : after.written.count index =
    w.written.count index + (passings index (w.log marks)).length ∧
      (passings index (w.log marks)).length = tally (Mark.writes (Comment.hasIndex index))
        marks := by
  induction marks generalizing w with
  | nil =>
    cases h
    exact ⟨rfl, rfl⟩
  | cons mark rest ih =>
    simp only [putAll?] at h
    split at h
    · cases h
    · rename_i next hput
      obtain ⟨hmemory, htally⟩ := ih h
      have hnote : mark.writes (Comment.hasIndex index) = true → mark.isNote = true := by
        cases mark <;> simp [Mark.writes, Mark.isNote]
      have hmark : next.written.count index =
          w.written.count index + if mark.writes (Comment.hasIndex index) then 1 else 0 :=
            written_put? hput
      unfold passings at hmemory htally ⊢
      rw [log, hput, filter_cons, tally_cons]
      by_cases hwrites : mark.writes (Comment.hasIndex index) = true
      · simp only [hwrites, hnote hwrites, if_true, Bool.and_self, map_cons, length_cons] at hmark ⊢
        omega
      · simp only [hwrites, Bool.and_false, if_false, Bool.false_eq_true] at hmark ⊢
        omega

theorem mem_log {entry : Mark × List Call} (h : entry ∈ w.log marks) :
    entry.1 ∈ marks ∧ ∃ atLineStart, entry.2 = entry.1.calls atLineStart := by
  induction marks generalizing w with
  | nil => cases h
  | cons mark rest ih =>
    rcases mem_cons.mp h with rfl | h
    · exact ⟨mem_cons_self, w.atLineStart, rfl⟩
    · split at h
      · exact ⟨mem_cons_of_mem _ (ih h).1, (ih h).2⟩
      · cases h

theorem exists_of_mem_passings (h : calls ∈ passings index (w.log marks)) : ∃ c atLineStart,
    .comment c ∈ marks ∧ c.anchor ≠ .none ∧ c.index = index ∧ calls = c.calls atLineStart := by
  obtain ⟨⟨mark, calls⟩, hentry, rfl⟩ := mem_map.mp h
  obtain ⟨hentry, hwrites⟩ := mem_filter.mp hentry
  obtain ⟨hmem, atLineStart, hcalls⟩ := mem_log hentry
  cases mark with
  | comment c =>
    obtain ⟨hanchor, hindex⟩ := Bool.and_eq_true_iff.mp hwrites
    exact ⟨c, atLineStart, hmem, by simpa using hanchor, eq_of_beq hindex, hcalls⟩
  | _ => cases hwrites

end Writer

theorem Tree.layOut_eq_ok (h : layOut marks = .ok w) :
    ∃ laid, Writer.initial.putAll? marks = some laid ∧ w = laid.finish := by
  unfold layOut at h
  split at h
  · rename_i laid hlaid
    split at h
    · cases h
    · cases h
      exact ⟨laid, hlaid, rfl⟩
  · cases h

/-! ## Whole trees -/

theorem mem_writes (hmem : .comment c ∈ marks) (hanchor : c.anchor ≠ .none)
    (hwanted : wanted c = true) :
    0 < tally (Mark.writes wanted) marks :=
  countP_pos_iff.mpr ⟨_, hmem, by simp [Mark.isNote, Mark.writes, hanchor, hwanted]⟩

namespace Tree

theorem tally_ownNotes_le (t : Tree) (v : Visit) :
    tally (Mark.writes wanted) (t.ownNotes v) ≤ t.carried wanted v.id := by
  have hrecords : tally (Mark.writes wanted) (t.recordMarks v.id) = 0 := by
    unfold recordMarks
    cases t.record? v.id <;> rfl
  unfold ownNotes
  rw [tally_append, hrecords]
  split
  · exact Nat.zero_le _
  · unfold Printer.commentMarks
    split
    · exact Nat.zero_le _
    · rw [Nat.add_zero, tally, countP_map]
      exact countP_mono_left fun c _ hc => (Bool.and_eq_true_iff.mp hc).2

theorem sum_carried_le_one {ids : List NodeId} (hnodup : ids.Nodup)
    (honce : ∀ a, t.carried wanted a ≤ 1)
    (hhome : ∀ a b, 0 < t.carried wanted a → 0 < t.carried wanted b → a = b) :
    (ids.map (t.carried wanted)).sum ≤ 1 := by
  induction ids with
  | nil => simp
  | cons a rest ih =>
    obtain ⟨hmem, hrest⟩ := nodup_cons.mp hnodup
    have hsum := ih hrest
    have hself := honce a
    rw [map_cons, sum_cons]
    by_cases hzero : t.carried wanted a = 0
    · omega
    · have hothers : (rest.map (t.carried wanted)).sum = 0 := by
        refine List.sum_eq_zero_iff_forall_eq_nat.mpr fun n hn => ?_
        obtain ⟨b, hb, rfl⟩ := mem_map.mp hn
        by_contra hpositive
        exact hmem (hhome a b (by omega) (by omega) ▸ hb)
      omega

theorem Intact.exists_visited (h : t.Intact t.root) (wanted : Comment → Bool)
    (hmarks : t.marks t.root = .ok marks) :
    ∃ ids : List NodeId, ids.Nodup ∧
      tally (Mark.writes wanted) marks ≤ (ids.map (t.carried wanted)).sum := by
  let visits := t.visitsWithin (2 * (t.size + 1)) ⟨.whole, false, t.root⟩
  refine ⟨visits.map Visit.id, h.nodup_visitsWithin (v := ⟨.whole, false, t.root⟩) _, ?_⟩
  calc tally (Mark.writes wanted) marks
      = (visits.map fun v => tally (Mark.writes wanted) (t.ownNotes v)).sum :=
        (Printer.marksWithin_prints t (Mark.writes wanted) _ _ _ (Nat.le_refl _) marks hmarks).2
    _ ≤ (visits.map fun v => t.carried wanted v.id).sum := sum_le_sum fun v _ =>
      t.tally_ownNotes_le v
    _ = ((visits.map Visit.id).map (t.carried wanted)).sum := by rw [List.map_map]; rfl

theorem Intact.tally_le_one (h : t.Intact t.root) (honce : ∀ a, t.carried wanted a ≤ 1)
    (hhome : ∀ a b, 0 < t.carried wanted a → 0 < t.carried wanted b → a = b)
    (hmarks : t.marks t.root = .ok marks) :
    tally (Mark.writes wanted) marks ≤ 1 := by
  obtain ⟨ids, hnodup, hle⟩ := h.exists_visited wanted hmarks
  exact hle.trans (sum_carried_le_one hnodup honce hhome)

/-- What is written is carried by some node. -/
theorem Intact.carries_written (h : t.Intact t.root) (wanted : Comment → Bool)
    (hmarks : t.marks t.root = .ok marks) (hmem : .comment c ∈ marks) (hanchor : c.anchor ≠ .none)
    (hwanted : wanted c = true) :
    ∃ a, 0 < t.carried wanted a := by
  by_contra hnone
  obtain ⟨ids, _, hle⟩ := h.exists_visited wanted hmarks
  have hzero : (ids.map (t.carried wanted)).sum = 0 := by
    refine List.sum_eq_zero_iff_forall_eq_nat.mpr fun n hn => ?_
    obtain ⟨a, _, rfl⟩ := mem_map.mp hn
    by_contra hpositive
    exact hnone ⟨a, Nat.pos_of_ne_zero hpositive⟩
  have hpositive := mem_writes hmem hanchor hwanted
  omega

end Tree

end UnitySharp
