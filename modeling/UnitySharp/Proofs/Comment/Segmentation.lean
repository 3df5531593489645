import UnitySharp.Proofs.Text.LineIndex
import Mathlib.Data.List.Forall2
import Mathlib.Data.List.Infix
import Mathlib.Data.List.TakeWhile

/-!
# What the comments of a text are

A text falls into segments from left to right in exactly one way, if at each point the first kind is
taken that can be: a complete string, a line comment, a block comment, a single character.  The
comments found are those among these.
-/

namespace UnitySharp

open List

variable {kind : Segment} {token rest body cs : List Char} {mark : Char}
  {segments : List (Segment × List Char)} {offset : Nat} {found : CommentKind × Nat × List Char}

/-! ## Segments -/

/-- What may stand between the marks of a string. -/
inductive StringBody (mark : Char) : List Char → Prop where
  | nil : StringBody mark []
  | plain {c : Char} {body : List Char} (hmark : c ≠ mark) (hslash : c ≠ '\\') (hline : c ≠ '\n')
      (hbody : StringBody mark body) : StringBody mark (c :: body)
  | escaped {c : Char} {body : List Char} (hbody : StringBody mark body) : StringBody mark
      ('\\' :: c :: body)

/-- A token that is a segment of some kind when a given text follows it. -/
inductive Cuts : Segment → List Char → List Char → Prop where
  | string {mark : Char} {body rest : List Char} (hmark : mark = '"' ∨ mark = '\x27')
      (hbody : StringBody mark body) :
      Cuts .string (mark :: (body ++ [mark])) rest
  | line {body rest : List Char} (hbody : ∀ c ∈ body, c ≠ '\r' ∧ c ≠ '\n')
      (hrest : ∀ c ∈ rest.head?, c = '\r' ∨ c = '\n') : Cuts (.comment .line)
        ('/' :: '/' :: body) rest
  | block {body rest : List Char} (hbody : ¬['*', '/'] <:+: body ++ ['*']) :
      Cuts (.comment .block) ('/' :: '*' :: (body ++ ['*', '/'])) rest
  | unclosed {body : List Char} (hbody : ¬['*', '/'] <:+: body) : Cuts (.comment .block)
      ('/' :: '*' :: body) []
  | other (c : Char) (rest : List Char) : Cuts .other [c] rest

theorem Cuts.ne_nil (h : Cuts kind token rest) : token ≠ [] := by
  cases h <;> simp

/-- The order in which the kinds of segments are tried. -/
def Segment.rank : Segment → Nat
  | .string => 0
  | .comment .line => 1
  | .comment .block => 2
  | .other => 3

/-- A text falls into these segments, of which each is the first that could be cut off. -/
inductive Segmented : List Char → List (Segment × List Char) → Prop where
  | nil : Segmented [] []
  | cons {kind : Segment} {token rest : List Char} {segments : List (Segment × List Char)}
      (hcuts : Cuts kind token rest)
      (hfirst : ∀ rival taken left, Cuts rival taken left → taken ++ left = token ++ rest →
        kind.rank ≤ rival.rank) (hrest : Segmented rest segments) :
      Segmented (token ++ rest) ((kind, token) :: segments)

/-- The comments among segments, each with the offset at which it starts. -/
def commentTokens : Nat → List (Segment × List Char) → List (CommentKind × Nat × List Char)
  | _, [] => []
  | offset, (.comment kind, token) :: rest =>
    (kind, offset, token) :: commentTokens (offset + token.length) rest
  | offset, (_, token) :: rest => commentTokens (offset + token.length) rest

/-! ## The parts of a segment -/

theorem stringRest?_of_body (hmark : mark ≠ '\\') (hbody : StringBody mark body)
    (rest : List Char) :
    stringRest? mark (body ++ mark :: rest) = some (body.length + 1) := by
  induction hbody with
  | nil =>
    unfold stringRest?
    split
    · rename_i heq
      cases heq
    · rename_i heq
      cases heq
      exact absurd rfl hmark
    · rename_i heq
      cases heq
      rw [if_pos rfl]
      rfl
  | @plain c body hne hslash hline _ ih =>
    have hstep : stringRest? mark (c :: (body ++ mark :: rest)) =
        (stringRest? mark (body ++ mark :: rest)).map (· + 1) := by
      rw [stringRest?]
      · rw [if_neg hne, if_neg (by simp [hslash, hline])]
      · intro _ _ heq
        exact absurd heq hslash
    rw [cons_append, hstep, ih]
    rfl
  | escaped _ ih =>
    rw [cons_append, cons_append, stringRest?, ih]
    rfl

theorem exists_body_of_stringRest? {n : Nat} (h : stringRest? mark cs = some n) :
    ∃ body rest, StringBody mark body ∧ cs = body ++ mark :: rest ∧ n = body.length + 1 := by
  fun_induction stringRest? mark cs generalizing n with
  | case1 => cases h
  | case2 c rest ih =>
    obtain ⟨m, hm, rfl⟩ := Option.map_eq_some_iff.mp h
    obtain ⟨body, after, hbody, rfl, rfl⟩ := ih hm
    exact ⟨'\\' :: c :: body, after, .escaped hbody, rfl, rfl⟩
  | case3 rest _ =>
    cases h
    exact ⟨[], rest, .nil, rfl, rfl⟩
  | case4 => cases h
  | case5 c rest _ hmark hplain ih =>
    obtain ⟨m, hm, rfl⟩ := Option.map_eq_some_iff.mp h
    obtain ⟨body, after, hbody, rfl, rfl⟩ := ih hm
    simp only [Bool.or_eq_true, decide_eq_true_eq, not_or] at hplain
    exact ⟨c :: body, after, .plain hmark hplain.1 hplain.2 hbody, rfl, rfl⟩

theorem lineRest_append (hbody : ∀ c ∈ body, c ≠ '\r' ∧ c ≠ '\n')
    (hrest : ∀ c ∈ rest.head?, c = '\r' ∨ c = '\n') :
    lineRest (body ++ rest) = body.length := by
  unfold lineRest
  rw [takeWhile_append_of_pos (by simpa using hbody)]
  have hnil : rest.takeWhile (fun c => c != '\r' && c != '\n') = [] := by
    cases rest with
    | nil => rfl
    | cons c rest =>
      rw [takeWhile_cons_of_neg]
      rcases hrest c rfl with rfl | rfl <;> decide
  rw [hnil, append_nil]

theorem blockRest_append (hbody : ¬['*', '/'] <:+: body ++ ['*']) (rest : List Char) :
    blockRest (body ++ '*' :: '/' :: rest) = body.length + 2 := by
  induction body with
  | nil => rfl
  | cons c body ih =>
    have hlater : ¬['*', '/'] <:+: body ++ ['*'] :=
      fun h => hbody (h.trans (suffix_cons c _).isInfix)
    have hstep : blockRest (c :: (body ++ '*' :: '/' :: rest)) = blockRest
      (body ++ '*' :: '/' :: rest) + 1 := by
      rw [blockRest]
      rintro after rfl heq
      cases body with
      | nil => cases heq
      | cons d body =>
        cases heq
        exact hbody ⟨[], body ++ ['*'], rfl⟩
    rw [cons_append, hstep, ih hlater, length_cons]

theorem blockRest_of_unclosed (h : ¬['*', '/'] <:+: cs) : blockRest cs = cs.length := by
  fun_induction blockRest cs with
  | case1 rest => exact absurd ⟨[], rest, rfl⟩ h
  | case2 c rest _ ih => rw [ih fun hrest => h (hrest.trans (suffix_cons c _).isInfix), length_cons]
  | case3 => rfl

theorem closing_cases (cs : List Char) : (¬['*', '/'] <:+: cs) ∨
    ∃ body rest, cs = body ++ '*' :: '/' :: rest ∧ ¬['*', '/'] <:+: body ++ ['*'] := by
  induction cs with
  | nil => left; simp
  | cons c cs ih =>
    by_cases hhere : ∃ rest, c :: cs = '*' :: '/' :: rest
    · obtain ⟨rest, hrest⟩ := hhere
      right
      exact ⟨[], rest, hrest, by simp [infix_cons_iff]⟩
    · have hnot : ¬['*', '/'] <+: c :: cs := fun ⟨rest, hrest⟩ => hhere ⟨rest, hrest.symm⟩
      rcases ih with hnone | ⟨body, rest, rfl, hbody⟩
      · left
        rw [infix_cons_iff]
        tauto
      · right
        refine ⟨c :: body, rest, rfl, ?_⟩
        rw [cons_append, infix_cons_iff]
        rintro (⟨after, hafter⟩ | hinfix)
        · cases body with
          | nil => cases hafter
          | cons d body =>
            cases hafter
            exact hnot ⟨_, rfl⟩
        · exact hbody hinfix

/-! ## The first segment -/

theorem firstSegment_of_cuts (hcuts : Cuts kind token rest) (hkind : kind ≠ .other) :
    firstSegment (token ++ rest) = (kind, token.length) := by
  cases hcuts with
  | @string mark body rest hmark hbody =>
    have hrest := stringRest?_of_body (by rcases hmark with rfl | rfl <;> decide) hbody rest
    rw [cons_append, append_assoc, singleton_append]
    rcases hmark with rfl | rfl <;> simp [firstSegment, hrest]
  | line hbody hrest => simp [firstSegment, lineRest_append hbody hrest]
  | block hbody => simp [firstSegment, blockRest_append hbody]
  | unclosed hbody => simp [firstSegment, blockRest_of_unclosed hbody]
  | other => exact absurd rfl hkind

theorem firstSegment_other (h : (firstSegment cs).1 = .other) : (firstSegment cs).2 = 1 := by
  unfold firstSegment at h ⊢
  split <;> (try split) <;> simp_all

theorem exists_cuts_firstSegment (hne : cs ≠ []) :
    ∃ token rest, cs = token ++ rest ∧ Cuts (firstSegment cs).1 token rest := by
  obtain ⟨c, cs, rfl⟩ := exists_cons_of_ne_nil hne
  by_cases hlonger : ∃ kind token rest, c :: cs = token ++ rest ∧ Cuts kind token rest ∧
    kind ≠ .other
  · obtain ⟨kind, token, rest, heq, hcuts, hkind⟩ := hlonger
    refine ⟨token, rest, heq, ?_⟩
    rw [heq, firstSegment_of_cuts hcuts hkind]
    exact hcuts
  · have hfound : (firstSegment (c :: cs)).1 = .other := by
      unfold firstSegment
      split
      · rename_i rest heq
        split
        · rename_i n hn
          obtain ⟨body, after, hbody, rfl, _⟩ := exists_body_of_stringRest? hn
          exact absurd ⟨_, _, after, by simp [heq], .string (.inl rfl) hbody, by simp⟩ hlonger
        · rfl
      · rename_i rest heq
        split
        · rename_i n hn
          obtain ⟨body, after, hbody, rfl, _⟩ := exists_body_of_stringRest? hn
          exact absurd ⟨_, _, after, by simp [heq], .string (.inr rfl) hbody, by simp⟩ hlonger
        · rfl
      · rename_i rest heq
        have hcuts : Cuts (.comment .line)
            ('/' :: '/' :: rest.takeWhile fun c => c != '\r' && c != '\n') (rest.dropWhile fun c =>
              c != '\r' && c != '\n') := by
          apply Cuts.line
          · intro c hc
            simpa using mem_takeWhile_imp hc
          · intro c hc
            have hstop := head?_dropWhile_not (fun c => c != '\r' && c != '\n') rest
            rw [Option.mem_def.mp hc] at hstop
            simpa [Decidable.imp_iff_not_or] using hstop
        refine absurd ⟨_, _, _, ?_, hcuts, by simp⟩ hlonger
        rw [heq, cons_append, cons_append, takeWhile_append_dropWhile]
      · rename_i rest heq
        rcases closing_cases rest with hnone | ⟨body, after, rfl, hbody⟩
        · exact absurd ⟨_, _, [], by simp [heq], .unclosed hnone, by simp⟩ hlonger
        · exact absurd ⟨_, _, after, by simp [heq], .block hbody, by simp⟩ hlonger
      · rfl
    exact ⟨[c], cs, rfl, hfound ▸ .other c cs⟩

theorem rank_le_of_cuts (hcuts : Cuts kind token rest) :
    (firstSegment (token ++ rest)).1.rank ≤ kind.rank := by
  by_cases hkind : kind = .other
  · subst hkind
    generalize (firstSegment (token ++ rest)).1 = found
    cases found with
    | comment kind => cases kind <;> decide
    | _ => decide
  · rw [firstSegment_of_cuts hcuts hkind]

theorem Segment.rank_injective {a b : Segment} (h : a.rank = b.rank) : a = b := by
  rcases a with _ | (_ | _) | _ <;> rcases b with _ | (_ | _) | _ <;> first | rfl | cases h

theorem firstSegment_of_first (hcuts : Cuts kind token rest)
    (hfirst : ∀ rival taken left, Cuts rival taken left → taken ++ left = token ++ rest →
      kind.rank ≤ rival.rank) :
    firstSegment (token ++ rest) = (kind, token.length) := by
  by_cases hkind : kind = .other
  · have hne : token ++ rest ≠ [] := by simp [hcuts.ne_nil]
    obtain ⟨taken, left, heq, hfound⟩ := exists_cuts_firstSegment hne
    have hsame : (firstSegment (token ++ rest)).1 = kind :=
      Segment.rank_injective
        (Nat.le_antisymm (rank_le_of_cuts hcuts) (hfirst _ _ _ hfound heq.symm))
    subst hkind
    refine Prod.ext hsame ((firstSegment_other hsame).trans ?_)
    cases hcuts
    rfl
  · exact firstSegment_of_cuts hcuts hkind

theorem exists_segmented (cs : List Char) : ∃ segments, Segmented cs segments := by
  induction hn : cs.length using Nat.strong_induction_on generalizing cs with
  | _ n ih =>
    by_cases hne : cs = []
    · exact ⟨[], hne ▸ .nil⟩
    · obtain ⟨token, rest, rfl, hcuts⟩ := exists_cuts_firstSegment hne
      have htoken := length_pos_of_ne_nil hcuts.ne_nil
      rw [length_append] at hn
      obtain ⟨segments, hrest⟩ := ih rest.length (by omega) rest rfl
      refine ⟨_, .cons hcuts (fun rival taken left hrival hsame => ?_) hrest⟩
      rw [← hsame]
      exact rank_le_of_cuts hrival

theorem Segmented.unique {first second : List (Segment × List Char)} (hfirst : Segmented cs first)
    (hsecond : Segmented cs second) : first = second := by
  induction hfirst generalizing second with
  | nil =>
    generalize hcs : ([] : List Char) = cs at hsecond
    cases hsecond with
    | nil => rfl
    | cons hcuts => exact absurd (append_eq_nil_iff.mp hcs.symm).1 hcuts.ne_nil
  | @cons kind token rest segments hcuts hleast hrest ih =>
    generalize hcs : token ++ rest = cs at hsecond
    cases hsecond with
    | nil => exact absurd (append_eq_nil_iff.mp hcs).1 hcuts.ne_nil
    | @cons rival taken left others hrival hleast' hleft =>
      have hsame := firstSegment_of_first hcuts hleast
      rw [hcs, firstSegment_of_first hrival hleast', Prod.mk.injEq] at hsame
      obtain ⟨rfl, hlength⟩ := hsame
      obtain ⟨rfl, rfl⟩ := append_inj hcs hlength.symm
      rw [ih hleft]

/-! ## The comments -/

theorem commentsFrom_of_segmented {cs : List Char} {segments : List (Segment × List Char)}
    (h : Segmented cs segments) {bound : Nat} (hbound : cs.length ≤ bound) (offset : Nat) :
    commentsFrom bound offset cs = commentTokens offset segments := by
  induction h generalizing bound offset with
  | nil => cases bound <;> rfl
  | @cons kind token rest segments hcuts hfirst _ ih =>
    obtain ⟨c, cs, rfl⟩ := exists_cons_of_ne_nil hcuts.ne_nil
    have hfound := firstSegment_of_first hcuts hfirst
    cases bound with
    | zero => simp at hbound
    | succ bound =>
      have hrest : rest.length ≤ bound := by
        simp at hbound
        omega
      have hlater := ih hrest (offset + (c :: cs).length)
      rw [cons_append] at hfound ⊢
      simp only [commentsFrom, hfound]
      rw [← cons_append, drop_left, take_left, hlater]
      cases kind <;> rfl

theorem exists_of_mem_commentTokens (h : Segmented cs segments)
    (hmem : found ∈ commentTokens offset segments) :
    found.2.2 ≠ [] ∧ ∃ before after, cs = before ++ found.2.2 ++ after ∧
      found.2.1 = offset + before.length := by
  induction h generalizing offset with
  | nil => cases hmem
  | @cons kind token rest segments hcuts _ _ ih =>
    have hlater : found ∈ commentTokens (offset + token.length) segments → found.2.2 ≠ [] ∧
        ∃ before after, token ++ rest = before ++ found.2.2 ++ after ∧
          found.2.1 = offset + before.length := by
      intro hmem
      obtain ⟨hne, before, after, rfl, hstart⟩ := ih hmem
      exact ⟨hne, token ++ before, after, by simp, by simp [hstart, Nat.add_assoc]⟩
    cases kind with
    | comment kind =>
      rcases mem_cons.mp hmem with rfl | hmem
      · exact ⟨hcuts.ne_nil, [], rest, rfl, rfl⟩
      · exact hlater hmem
    | _ => exact hlater hmem

theorem le_of_mem_commentTokens (h : found ∈ commentTokens offset segments) :
    offset ≤ found.2.1 := by
  fun_induction commentTokens offset segments with
  | case1 => cases h
  | case2 offset kind token rest ih =>
    rcases mem_cons.mp h with rfl | h
    · exact Nat.le_refl _
    · exact (Nat.le_add_right _ _).trans (ih h)
  | case3 offset _ token rest _ ih => exact (Nat.le_add_right _ _).trans (ih h)

theorem pairwise_commentTokens (offset : Nat) (segments : List (Segment × List Char)) :
    (commentTokens offset segments).Pairwise fun a b => a.2.1 + a.2.2.length ≤ b.2.1 := by
  fun_induction commentTokens offset segments with
  | case1 => exact .nil
  | case2 offset kind token rest ih =>
      exact .cons (fun found hfound => le_of_mem_commentTokens hfound) ih
  | case3 offset _ token rest _ ih => exact ih

/-- The text of a comment is its token without the blanks at the end, and its position leads to
where the token starts. -/
def Comment.IsOf (index : LineIndex) (c : Comment) (found : CommentKind × Nat × List Char) : Prop :=
  c.kind = found.1 ∧ index.offset c.position = found.2.1 ∧
    (∃ blanks, found.2.2 = c.text.toList ++ blanks ∧ ∀ b ∈ blanks, isBlank b = true) ∧
    ∀ last ∈ c.text.toList.getLast?, isBlank last = false

theorem isBlank_of_getLast?_trimmedRight {last : Char} (h : last ∈ (trimmedRight cs).getLast?) :
    isBlank last = false := by
  rw [trimmedRight, getLast?_reverse, Option.mem_def] at h
  have hstop := head?_dropWhile_not isBlank cs.reverse
  rw [h] at hstop
  simpa using hstop

section

variable {text : String} (h : Segmented text.toList segments)
include h

theorem scanComments_eq : scanComments text = (commentTokens 0 segments).mapIdx fun i found =>
    .unclaimed i (String.ofList (trimmedRight found.2.2)) found.1
    ((LineIndex.ofText text).position found.2.1) := by
  simp only [scanComments, commentsFrom_of_segmented h (Nat.le_refl _) 0]
  rfl

theorem offset_of_mem_commentTokens (hfound : found ∈ commentTokens 0 segments) :
    (LineIndex.ofText text).offset ((LineIndex.ofText text).position found.2.1) = found.2.1 := by
  obtain ⟨_, before, after, htext, hstart⟩ := exists_of_mem_commentTokens h hfound
  apply LineIndex.offset_position
  rw [htext, hstart]
  simp

theorem forall₂_scanComments :
    List.Forall₂ (Comment.IsOf (.ofText text)) (scanComments text) (commentTokens 0 segments) := by
  rw [scanComments_eq h]
  apply forall₂_iff_get.mpr
  constructor
  · simp
  intro i hi hfound
  simp only [get_eq_getElem, getElem_mapIdx]
  have hmem := getElem_mem hfound
  refine ⟨rfl, offset_of_mem_commentTokens h hmem,
    ⟨((commentTokens 0 segments)[i].2.2.reverse.takeWhile isBlank).reverse, ?_, ?_⟩, ?_⟩
  · simp only [Comment.unclaimed, String.toList_ofList]
    exact trimmedRight_append_blanks _
  · intro b hb
    exact mem_takeWhile_imp (mem_reverse.mp hb)
  · intro last hlast
    simp only [Comment.unclaimed, String.toList_ofList] at hlast
    exact isBlank_of_getLast?_trimmedRight hlast

theorem pairwise_scanComments_apart :
    (scanComments text).Pairwise fun a b => a.position.before b.position = true ∧
    (LineIndex.ofText text).offset a.position + a.text.length ≤ (LineIndex.ofText text).offset
    b.position := by
  rw [scanComments_eq h, pairwise_iff_getElem]
  intro i j hi hj hij
  simp only [length_mapIdx] at hi hj
  have hapart := pairwise_iff_getElem.mp (pairwise_commentTokens 0 segments) i j hi hj hij
  have hmem := getElem_mem hi
  obtain ⟨hne, _⟩ := exists_of_mem_commentTokens h hmem
  have htoken := length_pos_of_ne_nil hne
  have htrimmed :=
    congrArg List.length (trimmedRight_append_blanks (commentTokens 0 segments)[i].2.2)
  rw [length_append] at htrimmed
  simp only [getElem_mapIdx, Comment.unclaimed]
  rw [offset_of_mem_commentTokens h hmem,
    offset_of_mem_commentTokens h (getElem_mem hj), ← String.length_toList, String.toList_ofList]
  exact ⟨LineIndex.position_before (by omega), by omega⟩

end

/-- The comments of a text are the comment tokens of the one way to cut it into segments, in
order.  Each is found in the text where its position says, and no two overlap. -/
theorem scanComments_exact (text : String) :
    ∃ segments, (∀ others, Segmented text.toList others ↔ others = segments) ∧
      List.Forall₂ (Comment.IsOf (.ofText text)) (scanComments text) (commentTokens 0 segments) ∧
      (∀ c ∈ scanComments text, ∃ before after, text.toList = before ++ c.text.toList ++ after ∧
        (LineIndex.ofText text).offset c.position = before.length) ∧
      (scanComments text).Pairwise fun a b => a.position.before b.position = true ∧
        (LineIndex.ofText text).offset a.position + a.text.length ≤ (LineIndex.ofText text).offset
          b.position := by
  obtain ⟨segments, hsegments⟩ := exists_segmented text.toList
  have hof := forall₂_scanComments hsegments
  refine ⟨segments, ?_, hof, ?_, pairwise_scanComments_apart hsegments⟩
  · intro others
    constructor
    · intro hothers
      exact hothers.unique hsegments
    · rintro rfl
      exact hsegments
  · intro c hc
    rw [scanComments_eq hsegments, mem_mapIdx] at hc
    obtain ⟨i, hi, rfl⟩ := hc
    have hmem := getElem_mem hi
    obtain ⟨_, before, after, htext, hstart⟩ := exists_of_mem_commentTokens hsegments hmem
    refine ⟨before, ((commentTokens 0 segments)[i].2.2.reverse.takeWhile isBlank).reverse ++ after,
      ?_, ?_⟩
    · rw [Comment.unclaimed, String.toList_ofList, ← append_assoc, append_assoc before,
        ← trimmedRight_append_blanks]
      exact htext
    · rw [Comment.unclaimed, offset_of_mem_commentTokens hsegments hmem, hstart]
      simp

/-- A slash after an opening mark closes nothing, an escaped mark stays inside its string, and a
mark that opens no string is a character like any other. -/
example : (scanComments "a \"//\\\"\" /*/ \"*/ ' // b").map Comment.text =
    ["/*/ \"*/", "// b"] := by decide

end UnitySharp
