import UnitySharp.Code.Spelling
import UnitySharp.Proofs.Comment.Segmentation

/-!
# What stands between quotation marks

A quoted text is read back by undoing its escapes, it ends at the first mark that is not escaped,
and nothing in it is taken for a comment.
-/

namespace UnitySharp

open List

variable {mark c : Char} {cs body front : List Char}

/-- What a character behind a backslash stands for. -/
def escapedChar? (mark c : Char) : Option Char :=
  if c = '\\' then some '\\'
  else if c = 'n' then some '\n'
  else if c = 'r' then some '\r'
  else if c = 't' then some '\t'
  else if c = '0' then some '\x00'
  else if c = mark then some mark
  else none

/-- The text that is meant by what stands between two marks. -/
def unescaped? (mark : Char) : List Char → Option (List Char)
  | [] => some []
  | '\\' :: c :: rest => do return (← escapedChar? mark c) :: (← unescaped? mark rest)
  | c :: rest => if c = '\\' then none else (unescaped? mark rest).map (c :: ·)

def firstMark? (mark : Char) : List Char → Option Nat
  | [] => none
  | '\\' :: _ :: rest => (firstMark? mark rest).map (· + 2)
  | c :: rest => if c = mark then some 0 else (firstMark? mark rest).map (· + 1)

/-- A character that a quoted text must not hold as it is. -/
def isRaw (c : Char) : Bool :=
  c == '\r' || c == '\n' || c == '\t' || c == '\x00'

/-- A character is quoted by an escape that stands for it, or as it is. -/
theorem quotedChar_cases (hmark : mark = '"' ∨ mark = '\x27') (c : Char) :
    (∃ e, quotedChar mark c = ['\\', e] ∧ escapedChar? mark e = some c ∧ isRaw e = false) ∨
      quotedChar mark c = [c] ∧ c ≠ '\\' ∧ c ≠ mark ∧ isRaw c = false := by
  unfold quotedChar
  repeat' split
  all_goals try exact .inl ⟨_, rfl, by simp_all [escapedChar?], by decide⟩
  · subst_vars
    rcases hmark with rfl | rfl <;> exact .inl ⟨_, rfl, by decide, by decide⟩
  · exact .inr ⟨rfl, by simp_all [isRaw]⟩

def quotedBody (mark : Char) (cs : List Char) : List Char :=
  cs.flatMap (quotedChar mark)

theorem unescaped?_plain (h : c ≠ '\\') (rest : List Char) :
    unescaped? mark (c :: rest) = (unescaped? mark rest).map (c :: ·) := by
  rw [unescaped?, if_neg h]
  intro _ _ heq
  exact absurd heq h

theorem firstMark?_plain (h : c ≠ '\\') (hmark : c ≠ mark) (rest : List Char) :
    firstMark? mark (c :: rest) = (firstMark? mark rest).map (· + 1) := by
  rw [firstMark?, if_neg hmark]
  intro _ _ heq
  exact absurd heq h

section

variable (hmark : mark = '"' ∨ mark = '\x27') (cs : List Char)
include hmark

theorem stringBody_quotedBody : StringBody mark (quotedBody mark cs) := by
  induction cs with
  | nil => exact .nil
  | cons c cs ih =>
    rw [quotedBody, flatMap_cons]
    rcases quotedChar_cases hmark c with ⟨e, heq, _, _⟩ | ⟨heq, hslash, hplain, hraw⟩
    · rw [heq]
      exact .escaped ih
    · rw [heq]
      exact .plain hplain hslash (by rintro rfl; cases hraw) ih

theorem isRaw_quotedBody : ∀ c ∈ quotedBody mark cs, isRaw c = false := by
  intro c hc
  obtain ⟨d, _, hd⟩ := mem_flatMap.mp hc
  rcases quotedChar_cases hmark d with ⟨e, heq, _, hraw⟩ | ⟨heq, _, _, hraw⟩
  · rw [heq] at hd
    rcases mem_pair.mp hd with rfl | rfl
    · decide
    · exact hraw
  · rw [heq] at hd
    exact mem_singleton.mp hd ▸ hraw

theorem unescaped?_quotedBody : unescaped? mark (quotedBody mark cs) = some cs := by
  induction cs with
  | nil => rfl
  | cons c cs ih =>
    rw [quotedBody, flatMap_cons, ← quotedBody]
    rcases quotedChar_cases hmark c with ⟨e, heq, he, _⟩ | ⟨heq, hslash, _⟩
    · simp [heq, unescaped?, he, ih]
    · rw [heq, singleton_append, unescaped?_plain hslash, ih]
      rfl

end

theorem StringBody.firstMark? (hmark : mark = '"' ∨ mark = '\x27') (h : StringBody mark body) :
    firstMark? mark (body ++ [mark]) = some body.length := by
  induction h with
  | nil => rcases hmark with rfl | rfl <;> rfl
  | plain hplain hslash _ _ ih =>
    rw [cons_append, firstMark?_plain hslash hplain, ih]
    rfl
  | escaped _ ih => simp [UnitySharp.firstMark?, ih]

/-! ## Behind a quoted text -/

/-- A position once something has been put in front of its text that stays on the first line. -/
def Position.movedRight (p : Position) (n : Nat) : Position :=
  if p.line = 1 then ⟨1, p.column + n⟩ else p

def Comment.movedRight (n : Nat) (comment : Comment) : Comment :=
  { comment with position := comment.position.movedRight n }

theorem lineStartsFrom_append (h : '\n' ∉ front) (n : Nat) (cs : List Char) :
    lineStartsFrom n (front ++ cs) = lineStartsFrom (n + front.length) cs := by
  induction front generalizing n with
  | nil => rfl
  | cons c front ih =>
    rw [mem_cons, not_or] at h
    rw [cons_append, lineStartsFrom, if_neg (Ne.symm h.1), ih h.2, length_cons, Nat.add_assoc,
      Nat.add_comm 1]

theorem lineStartsFrom_add (n m : Nat) (cs : List Char) :
    lineStartsFrom (n + m) cs = (lineStartsFrom m cs).map (n + ·) := by
  induction cs generalizing m with
  | nil => rfl
  | cons c cs ih =>
    simp only [lineStartsFrom, Nat.add_assoc, ih]
    split <;> rfl

theorem LineIndex.position_append (h : '\n' ∉ front) (cs : List Char) (n : Nat) :
    (ofChars (front ++ cs)).position (front.length + n : Nat) = ((ofChars cs).position n).movedRight
      front.length := by
  have hstarts : (ofChars (front ++ cs)).starts = 0 :: (lineStartsFrom 0 cs).map
    (front.length + ·) := by
    rw [ofChars, lineStartsFrom_append h, Nat.zero_add, ← Nat.add_zero front.length,
      lineStartsFrom_add]
    rfl
  have hrow : (ofChars (front ++ cs)).rowOf (front.length + n) = (ofChars cs).rowOf n := by
    rw [rowOf, hstarts, rowOf, ofChars, countP_cons_of_pos (by simp; omega),
      countP_cons_of_pos (by simp), countP_map]
    refine congrArg (· + 1) (countP_congr fun start _ => ?_)
    simp only [Function.comp_apply, decide_eq_true_eq]
    omega
  have hpos := rowOf_pos cs n
  have hle := rowOf_le_length (ofChars cs) n
  have hown : (ofChars cs).starts = 0 :: lineStartsFrom 0 cs := rfl
  rw [position_eq, position_eq, hrow, hstarts, hown, Position.movedRight]
  rw [hown, length_cons] at hle
  generalize (ofChars cs).rowOf n = row at *
  rcases row with _ | _ | row
  · omega
  · simp
    omega
  · have hrow : row < (lineStartsFrom 0 cs).length := by omega
    rw [if_neg (by simp only; omega)]
    have hstart : (0 :: map (front.length + ·) (lineStartsFrom 0 cs)).getD (row + 1 + 1 - 1) 0 =
        front.length + (0 :: lineStartsFrom 0 cs).getD (row + 1 + 1 - 1) 0 := by simp [hrow]
    rw [hstart, Position.mk.injEq]
    exact ⟨rfl, by omega⟩

theorem commentTokens_add (n offset : Nat) (segments : List (Segment × List Char)) :
    commentTokens (n + offset) segments =
      (commentTokens offset segments).map fun found => (found.1, n + found.2.1, found.2.2) := by
  fun_induction commentTokens offset segments with
  | case1 => rfl
  | case2 offset kind token rest ih => simp [commentTokens, Nat.add_assoc, ih]
  | case3 offset kind token rest hkind ih =>
    rw [commentTokens, Nat.add_assoc, ih]
    exact hkind

/-- Quoting loses nothing and hides what it quotes: the escapes give the text back, the first mark
that is not escaped ends it, and the comments found behind it are those of the rest, moved to the
right on the first line. -/
theorem quoted_reads_back (hmark : mark = '"' ∨ mark = '\x27') (text : String) :
    (∀ c ∈ (quoted mark text).toList, c ≠ '\r' ∧ c ≠ '\n' ∧ c ≠ '\t' ∧ c ≠ '\x00') ∧
      (∃ body, (quoted mark text).toList = mark :: (body ++ [mark]) ∧
        unescaped? mark body = some text.toList ∧
        firstMark? mark (body ++ [mark]) = some body.length) ∧ ∀ rest,
          scanComments (quoted mark text ++ rest) = (scanComments rest).map
    (Comment.movedRight (quoted mark text).length) := by
  have hchars : (quoted mark text).toList = mark :: (quotedBody mark text.toList ++ [mark]) := by
    rw [quoted, String.toList_ofList]
    rfl
  have hbody := stringBody_quotedBody hmark text.toList
  have hraw : ∀ c ∈ (quoted mark text).toList, isRaw c = false := by
    rw [hchars]
    intro c hc
    have hquote : isRaw mark = false := by rcases hmark with rfl | rfl <;> decide
    rcases mem_cons.mp hc with rfl | hc
    · exact hquote
    · rcases mem_append.mp hc with hc | hc
      · exact isRaw_quotedBody hmark _ c hc
      · exact mem_singleton.mp hc ▸ hquote
  refine ⟨?_, ⟨_, hchars, unescaped?_quotedBody hmark _, hbody.firstMark? hmark⟩, fun rest => ?_⟩
  · intro c hc
    simpa [isRaw, and_assoc] using hraw c hc
  · obtain ⟨segments, hsegments⟩ := exists_segmented rest.toList
    have hcut : Cuts .string (quoted mark text).toList rest.toList := hchars ▸ .string hmark hbody
    have hall :
      Segmented (quoted mark text ++ rest).toList
      ((.string, (quoted mark text).toList) :: segments) := by
      rw [String.toList_append]
      exact .cons hcut (fun _ _ _ _ _ => Nat.zero_le _) hsegments
    have htokens : commentTokens 0 ((.string, (quoted mark text).toList) :: segments) =
        (commentTokens 0 segments).map fun found =>
          (found.1, (quoted mark text).toList.length + found.2.1, found.2.2) := by
      rw [← commentTokens_add]
      simp [commentTokens]
    rw [scanComments_eq hall, scanComments_eq hsegments, htokens, mapIdx_eq_iff]
    intro i
    rw [getElem?_map, getElem?_mapIdx, getElem?_map, Option.map_map, Option.map_map]
    refine Option.map_congr fun found _ => ?_
    have hposition := LineIndex.position_append (fun hline => absurd (hraw _ hline) (by decide))
      rest.toList found.2.1
    rw [← String.toList_append, String.length_toList] at hposition
    simp only [Function.comp_apply, Comment.movedRight, Comment.unclaimed, LineIndex.ofText,
      hposition, String.length_toList]

theorem quoted_reads_back_slashes :
    ('"' = '"' ∨ '"' = '\x27') ∧ (quoted '"' "//\\").toList = "\"//\\\\\"".toList ∧
    (scanComments (quoted '"' "//\\" ++ " // b")).map Comment.position = [⟨1, 8⟩] := by
  refine ⟨.inl rfl, by decide, ?_⟩
  rw [(quoted_reads_back (.inl rfl) "//\\").2.2]
  decide

end UnitySharp
