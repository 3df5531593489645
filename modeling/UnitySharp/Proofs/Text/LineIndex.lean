import UnitySharp.Comment.Basic

/-!
# Lines and offsets

Every offset of a text comes back from its position, and every place on a line comes back from its
offset.
-/

namespace UnitySharp

open List

namespace LineIndex

variable {cs : List Char} {n m row column : Nat}

def rowOf (index : LineIndex) (n : Nat) : Nat :=
  index.starts.countP fun (start : Nat) => (start : Int) ≤ n

theorem rowOf_pos (cs : List Char) (n : Nat) : 0 < (ofChars cs).rowOf n := by
  unfold rowOf ofChars
  rw [countP_cons_of_pos (by simp)]
  omega

theorem rowOf_le_length (index : LineIndex) (n : Nat) : index.rowOf n ≤ index.starts.length :=
  countP_le_length

theorem rowOf_mono (index : LineIndex) (h : n ≤ m) : index.rowOf n ≤ index.rowOf m := by
  apply countP_mono_left
  intro start _ hstart
  simp only [decide_eq_true_eq] at hstart ⊢
  omega

theorem position_eq (cs : List Char) (n : Nat) :
    (ofChars cs).position n =
      ⟨(ofChars cs).rowOf n, n - ((ofChars cs).starts.getD ((ofChars cs).rowOf n - 1) 0 : Nat) +
        1⟩ := by
  have hrow := rowOf_pos cs n
  unfold rowOf at hrow
  simp only [position, rowOf, Nat.ne_of_gt hrow, if_false]

theorem offset_position (h : n ≤ cs.length) :
    (ofChars cs).offset ((ofChars cs).position n) = n := by
  have hrow := rowOf_pos cs n
  have hlength := rowOf_le_length (ofChars cs) n
  rw [position_eq]
  unfold offset
  have hmin : min (max ((ofChars cs).rowOf n : Int) 1) (ofChars cs).starts.length =
    (ofChars cs).rowOf n := by omega
  have hsub : (((ofChars cs).rowOf n : Int) - 1).toNat = (ofChars cs).rowOf n - 1 := by omega
  have hsize : (ofChars cs).size = cs.length := rfl
  simp only [hmin, hsub, hsize]
  omega

theorem position_before (h : n < m) :
    ((ofChars cs).position n).before ((ofChars cs).position m) = true := by
  have hrows := rowOf_mono (ofChars cs) (Nat.le_of_lt h)
  rw [position_eq, position_eq]
  simp only [Position.before, Bool.or_eq_true, Bool.and_eq_true, decide_eq_true_eq, beq_iff_eq]
  rcases Nat.lt_or_eq_of_le hrows with hlt | heq
  · left
    omega
  · right
    rw [heq]
    omega

theorem firstLine_cases (cs : List Char) :
    (splitAtChar '\n' cs = [cs] ∧ ∀ n, lineStartsFrom n cs = []) ∨
      ∃ first rest, cs.length = first.length + 1 + rest.length ∧
        splitAtChar '\n' cs = first :: splitAtChar '\n' rest ∧
        ∀ n, lineStartsFrom n cs = (n + first.length + 1) :: lineStartsFrom (n + first.length + 1)
        rest := by
  induction cs with
  | nil => exact .inl ⟨rfl, fun _ => rfl⟩
  | cons c cs ih =>
    by_cases hc : c = '\n'
    · exact .inr
        ⟨[], cs, by simp [Nat.add_comm], by simp [splitAtChar, hc], by simp [lineStartsFrom, hc]⟩
    · rcases ih with ⟨hline, hnone⟩ | ⟨first, rest, hlength, hlines, hstarts⟩
      · exact .inl ⟨by simp [splitAtChar, hc, hline], by simp [lineStartsFrom, hc, hnone]⟩
      · refine .inr ⟨c :: first, rest, by simp only [length_cons, hlength]; omega,
          by simp [splitAtChar, hc, hlines], fun n => ?_⟩
        simp only [lineStartsFrom, hc, if_false, hstarts, length_cons]
        rw [Nat.add_assoc n 1, Nat.add_comm 1]

theorem lt_of_mem_lineStartsFrom {start : Nat} (h : start ∈ lineStartsFrom n cs) : n < start := by
  induction cs generalizing n with
  | nil => cases h
  | cons c rest ih =>
    unfold lineStartsFrom at h
    split at h
    · rcases mem_cons.mp h with rfl | h
      · exact Nat.lt_succ_self n
      · exact Nat.lt_of_succ_lt (ih h)
    · exact Nat.lt_of_succ_lt (ih h)

/-- A place on a line is reached from the start of this line, and it lies behind the starts of as
many lines as its number says. -/
theorem exists_start {line : List Char} (hline : (splitAtChar '\n' cs)[row]? = some line)
    (hcolumn : column ≤ line.length) :
    ∃ start, (n :: lineStartsFrom n cs)[row]? = some start ∧ n ≤ start ∧
      start + column ≤ n + cs.length ∧ (n :: lineStartsFrom n cs).countP (· ≤ start + column) =
      row + 1 := by
  induction row generalizing n cs with
  | zero =>
    refine ⟨n, rfl, Nat.le_refl n, ?_, ?_⟩
    all_goals rcases firstLine_cases cs with ⟨hlines, hnone⟩ | ⟨first, rest, hlength, hlines,
      hstarts⟩
    all_goals obtain rfl := Option.some.inj (hlines ▸ hline)
    · omega
    · omega
    · simp [hnone]
    · rw [countP_cons_of_pos (by simp), Nat.add_left_inj, countP_eq_zero]
      intro start hstart
      rw [hstarts] at hstart
      have hlate : n + first.length < start := by
        rcases mem_cons.mp hstart with rfl | hstart
        · exact Nat.lt_succ_self _
        · exact Nat.lt_of_succ_lt (lt_of_mem_lineStartsFrom hstart)
      simp only [decide_eq_true_eq]
      omega
  | succ row ih =>
    rcases firstLine_cases cs with ⟨hlines, hnone⟩ | ⟨first, rest, hlength, hlines, hstarts⟩
    · simp [hlines] at hline
    · rw [hlines] at hline
      obtain ⟨start, hstart, hle, hend, hcount⟩ := ih (n := n + first.length + 1) hline
      rw [hstarts]
      refine ⟨start, hstart, by omega, by omega, ?_⟩
      rw [countP_cons_of_pos (by simp; omega), hcount]

/-- Offsets and positions are turned into each other without loss, and in the same order.  The lines
are what the newlines leave of a text, and a line has a column for each of its characters and one
more, for the newline or for the end of the text. -/
theorem converts_both_ways (text : String) :
    (∀ n ≤ text.length, (ofText text).offset ((ofText text).position n) = n) ∧
      (∀ n m, n < m → m ≤ text.length →
        ((ofText text).position n).before ((ofText text).position m) = true) ∧ ∀ (row column : Nat)
    (line : List Char), (splitAtChar '\n' text.toList)[row]? = some line →
          column ≤ line.length →
          (ofText text).position ((ofText text).offset ⟨row + 1, column + 1⟩) =
          ⟨row + 1, column + 1⟩ := by
  refine ⟨fun n hn => offset_position (by rwa [String.length_toList]), fun n m h _ =>
    position_before h, ?_⟩
  intro row column line hline hcolumn
  obtain ⟨start, hstart, _, hend, hcount⟩ := exists_start (n := 0) hline hcolumn
  have hrow : (ofText text).rowOf (start + column) = row + 1 := by
    rw [← hcount]
    exact countP_congr fun _ _ => by simp only [decide_eq_true_eq, Int.ofNat_le]
  have hget : (ofText text).starts.getD row 0 = start := by
    rw [getD_eq_getElem?_getD]
    exact congrArg (Option.getD · 0) hstart
  have hoffset : (ofText text).offset ⟨row + 1, column + 1⟩ = (start + column : Nat) := by
    have hlast : row < (ofText text).starts.length := (List.getElem?_eq_some_iff.mp hstart).1
    have hsize : (ofText text).size = text.toList.length := rfl
    have hmin : min (max ((row : Int) + 1) 1) (ofText text).starts.length = row + 1 := by omega
    have hsub : ((row : Int) + 1 - 1).toNat = row := by omega
    simp only [offset, hmin, hsub, hget, hsize]
    omega
  rw [hoffset, ofText, position_eq, ← ofText, hrow, Nat.add_sub_cancel, hget]
  simp only [Position.mk.injEq]
  omega

end LineIndex

end UnitySharp
