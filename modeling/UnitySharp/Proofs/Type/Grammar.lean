import Mathlib.Data.List.TakeWhile
import UnitySharp.Type.Spelling

/-!
# The grammar of type spellings

What a spelling means is said here without the reader: `Lexes` cuts characters into tokens, and
`TypeTable.Denotes` gives the words of the grammar

    type ::= name [ '<' type (',' type)* '>' ] ( '[' ','* ']' )*

together with the types they stand for.  The reader accepts exactly these words, and reads them as
these types.
-/

namespace UnitySharp

open List

variable {c : Char} {token : SpellingToken} {cs after : List Char} {tokens : List SpellingToken}
  {bound : Nat}

/-! ## Tokens -/

/-- Characters fall into tokens.  Blanks may stand anywhere between tokens, and a name is as long as
it can be. -/
inductive Lexes : List Char → List SpellingToken → Prop
  | done : Lexes [] []
  | blank {c : Char} {cs : List Char} {tokens : List SpellingToken} :
      isBlank c = true → Lexes cs tokens → Lexes (c :: cs) tokens
  | mark {c : Char} {token : SpellingToken} {cs : List Char} {tokens : List SpellingToken} :
      spellingMark? c = some token → Lexes cs tokens → Lexes (c :: cs) (token :: tokens)
  | name {c : Char} {word cs : List Char} {tokens : List SpellingToken} :
      startsTypeName c = true → (∀ d ∈ word, continuesTypeName d = true) →
      (∀ d ∈ cs.head?, continuesTypeName d = false) → Lexes cs tokens →
      Lexes (c :: (word ++ cs)) (.name (String.ofList (c :: word)) :: tokens)

def EndsInInk (cs : List Char) : Prop :=
  ∀ c ∈ cs.getLast?, isBlank c = false

theorem endsInInk_trimmed (cs : List Char) : EndsInInk (trimmed cs) := by
  intro c hc
  rw [trimmed, trimmedRight, getLast?_reverse] at hc
  have hhead := head?_dropWhile_not isBlank (trimmedLeft cs).reverse
  rw [Option.mem_def] at hc
  rw [hc] at hhead
  simpa using hhead

theorem EndsInInk.of_append {back : List Char} (front : List Char) (h : EndsInInk (front ++ back)) :
    EndsInInk back := by
  intro c hc
  refine h c ?_
  rw [getLast?_append, Option.mem_def.mp hc]
  rfl

theorem isBlank_eq_false_of_startsTypeName (h : startsTypeName c = true) : isBlank c = false := by
  have hrange : 33 ≤ c.toNat ∧ c.toNat ≤ 127 := by
    simp only [startsTypeName, isAsciiLetter, Bool.or_eq_true, Bool.and_eq_true, decide_eq_true_eq,
      beq_iff_eq] at h
    rcases h with ((⟨hlow, hhigh⟩ | ⟨hlow, hhigh⟩) | rfl) | rfl
    · have hlow : 'a'.toNat ≤ c.toNat := hlow
      have hhigh : c.toNat ≤ 'z'.toNat := hhigh
      simp only [Char.reduceToNat] at hlow hhigh
      omega
    · have hlow : 'A'.toNat ≤ c.toNat := hlow
      have hhigh : c.toNat ≤ 'Z'.toNat := hhigh
      simp only [Char.reduceToNat] at hlow hhigh
      omega
    · decide
    · decide
  simp only [isBlank, Bool.or_eq_false_iff, Bool.and_eq_false_iff, decide_eq_false_iff_not,
    beq_eq_false_iff_ne]
  omega

theorem not_starts_of_mark (h : spellingMark? c = some token) :
    startsTypeName c = false ∧ isBlank c = false := by
  unfold spellingMark? at h
  split at h
  all_goals first
    | exact ⟨by decide, by decide⟩
    | cases h

theorem nextSpellingToken?_blank (h : isBlank c = true) :
    nextSpellingToken? (c :: cs) = nextSpellingToken? cs := by
  simp only [nextSpellingToken?, trimmedLeft, dropWhile_cons, h, if_true]

theorem nextSpellingToken?_mark (h : spellingMark? c = some token) :
    nextSpellingToken? (c :: cs) = some (token, cs) := by
  obtain ⟨hstart, hblank⟩ := not_starts_of_mark h
  simp [nextSpellingToken?, trimmedLeft, hstart, hblank, h]

theorem nextSpellingToken?_name {word : List Char} (hstart : startsTypeName c = true)
    (hword : ∀ d ∈ word, continuesTypeName d = true)
    (hstop : ∀ d ∈ cs.head?, continuesTypeName d = false) :
    nextSpellingToken? (c :: (word ++ cs)) = some (.name (String.ofList (c :: word)), cs) := by
  have hblank := isBlank_eq_false_of_startsTypeName hstart
  have hstopped : cs.takeWhile continuesTypeName = [] ∧ cs.dropWhile continuesTypeName = cs := by
    cases cs with
    | nil => simp
    | cons d rest => simp [hstop d rfl]
  simp [nextSpellingToken?, trimmedLeft, hstart, hblank, takeWhile_append_of_pos hword,
    dropWhile_append_of_pos hword, hstopped]

theorem Lexes.of_next (h : nextSpellingToken? cs = some (token, after))
    (hafter : Lexes after tokens) :
    Lexes cs (token :: tokens) := by
  induction cs with
  | nil => simp [nextSpellingToken?, trimmedLeft] at h
  | cons c cs ih =>
    cases hblank : isBlank c with
    | true => exact .blank hblank (ih (nextSpellingToken?_blank hblank ▸ h))
    | false =>
      simp only [nextSpellingToken?, trimmedLeft, dropWhile_cons, hblank, Bool.false_eq_true,
        if_false] at h
      split at h
      · rename_i hstart
        cases h
        have hname : Lexes (c :: (cs.takeWhile continuesTypeName ++ cs.dropWhile continuesTypeName))
          _ :=
          .name hstart (fun d hd => mem_takeWhile_imp hd) ?_ hafter
        · rwa [takeWhile_append_dropWhile] at hname
        · intro d hd
          have hhead := head?_dropWhile_not continuesTypeName cs
          rw [Option.mem_def.mp hd] at hhead
          simpa using hhead
      · obtain ⟨found, hmark, hfound⟩ := Option.map_eq_some_iff.mp h
        cases hfound
        exact .mark hmark hafter

section

-- The cutting of all tokens unfolds without a look into that of the next one.
attribute [local irreducible] nextSpellingToken?

@[simp] theorem spellingTokens?_nil (bound : Nat) : spellingTokens? bound [] = some [] := by
  cases bound <;> rfl

@[simp] theorem spellingTokens?_zero (c : Char) (cs : List Char) :
    spellingTokens? 0 (c :: cs) = none :=
  rfl

theorem spellingTokens?_cons (bound : Nat) (c : Char) (cs : List Char) :
    spellingTokens? (bound + 1) (c :: cs) =
      match nextSpellingToken? (c :: cs) with
      | none => none
      | some (token, after) => (spellingTokens? bound after).map (token :: ·) :=
  rfl

end

theorem Lexes.of_spellingTokens? (h : spellingTokens? bound cs = some tokens) :
    Lexes cs tokens := by
  induction bound generalizing cs tokens with
  | zero =>
    cases cs with
    | nil =>
      rw [spellingTokens?_nil] at h
      cases h
      exact .done
    | cons => exact absurd h (by simp)
  | succ bound ih =>
    cases cs with
    | nil =>
      rw [spellingTokens?_nil] at h
      cases h
      exact .done
    | cons c cs =>
      rw [spellingTokens?_cons] at h
      split at h
      · cases h
      · rename_i token after hnext
        obtain ⟨others, hothers, rfl⟩ := Option.map_eq_some_iff.mp h
        exact .of_next hnext (ih hothers)

theorem spellingTokens?_cons_of_next (h : nextSpellingToken? (c :: cs) = some (token, after)) :
    spellingTokens? (bound + 1) (c :: cs) = (spellingTokens? bound after).map (token :: ·) := by
  rw [spellingTokens?_cons, h]

/-- Characters without a blank at their end are cut as the relation says.  A blank takes no token,
so it costs nothing of the bound. -/
theorem Lexes.spellingTokens?_eq (h : Lexes cs tokens) :
    ∀ bound, cs.length ≤ bound → EndsInInk cs → spellingTokens? bound cs = some tokens := by
  induction h with
  | done => intro bound _ _; exact spellingTokens?_nil bound
  | @blank c cs tokens hblank _ ih =>
    intro bound hbound hink
    obtain ⟨bound, rfl⟩ : ∃ less, bound = less + 1 :=
      Nat.exists_eq_add_one.mpr (by simp at hbound; omega)
    have hlength : cs.length ≤ bound := by simpa using hbound
    cases cs with
    | nil => exact absurd (hink c (by simp)) (by simp [hblank])
    | cons d rest =>
      rw [← ih (bound + 1) (by omega) (hink.of_append [c]), spellingTokens?_cons,
        spellingTokens?_cons, nextSpellingToken?_blank hblank]
  | @mark c token cs tokens hmark _ ih =>
    intro bound hbound hink
    obtain ⟨bound, rfl⟩ : ∃ less, bound = less + 1 :=
      Nat.exists_eq_add_one.mpr (by simp at hbound; omega)
    rw [spellingTokens?_cons_of_next (nextSpellingToken?_mark hmark),
      ih bound (by simpa using hbound) (hink.of_append [c]), Option.map_some]
  | @name c word cs tokens hstart hword hstop _ ih =>
    intro bound hbound hink
    obtain ⟨bound, rfl⟩ : ∃ less, bound = less + 1 :=
      Nat.exists_eq_add_one.mpr (by simp at hbound; omega)
    have hlength : cs.length ≤ bound := by
      simp only [length_cons, length_append] at hbound
      omega
    rw [spellingTokens?_cons_of_next (nextSpellingToken?_name hstart hword hstop),
      ih bound hlength (hink.of_append (c :: word)), Option.map_some]

theorem spellingTokens?_trimmed_iff :
    spellingTokens? (trimmed cs).length (trimmed cs) = some tokens ↔ Lexes (trimmed cs) tokens :=
  ⟨Lexes.of_spellingTokens?, fun h => h.spellingTokens?_eq _ (Nat.le_refl _) (endsInInk_trimmed cs)⟩

/-! ## Words -/

namespace TypeTable

variable {name : String} {table : TypeTable}

mutual

/-- The tokens are a word of the grammar, all names of which are known, and the word denotes the
type. -/
inductive Denotes (table : TypeTable) : List SpellingToken → Ty → Prop
  | name {name : String} {type : Ty} : table.find? name = some type →
    Denotes table [.name name] type
  | generic {name : String} {base : Ty} {arguments : List SpellingToken} {types : List Ty} :
      table.find? name = some base → DenotesAll table arguments types →
      Denotes table
      (.name name :: .less :: (arguments ++ [.greater])) (.generic base.name base.kind types)
  | array {tokens : List SpellingToken} {element : Ty} (commas : Nat) :
      Denotes table tokens element → Denotes table
        (tokens ++ .openBracket :: (List.replicate commas .comma ++ [.closeBracket]))
        (.array element (commas + 1))

inductive DenotesAll (table : TypeTable) : List SpellingToken → List Ty → Prop
  | one {tokens : List SpellingToken} {type : Ty} : Denotes table tokens type →
    DenotesAll table tokens [type]
  | more {first rest : List SpellingToken} {type : Ty} {types : List Ty} :
      Denotes table first type → DenotesAll table rest types →
      DenotesAll table (first ++ .comma :: rest) (type :: types)

end

theorem entry?_isSome_iff {entries : List (String × Ty)} :
    ( entry? name entries).isSome ↔ name ∈ entries.map Prod.fst := by
  induction entries with
  | nil => simp [ entry?]
  | cons entry rest ih =>
    simp only [ entry?, map_cons, mem_cons]
    split
    · simp_all
    · rename_i hother
      simp [ih, Ne.symm hother]

theorem find?_isSome_iff :
    (table.find? name).isSome ↔
      name ∈ table.declared.map Prod.fst ∨ name ∈ Ty.wellKnownNames.map Prod.fst := by
  rw [← entry?_isSome_iff, ← entry?_isSome_iff, find?]
  cases entry? name table.declared <;> simp

variable {rest used : List SpellingToken} {type result : Ty} {types : List Ty}

theorem Denotes.of_readArrays {bound : Nat} (hused : table.Denotes used type)
    (h : readArrays bound type tokens = .ok (result, rest)) :
    ∃ more, tokens = more ++ rest ∧ table.Denotes (used ++ more) result := by
  fun_induction readArrays bound type tokens generalizing used with
  | case1 bound type inner commas after hafter =>
    rename_i ih
    have hcommas : List.replicate commas.length .comma = commas :=
      (eq_replicate_iff.mpr ⟨rfl, fun token htoken => by simpa using mem_takeWhile_imp htoken⟩).symm
    obtain ⟨more, rfl, hmore⟩ := ih (.array commas.length hused) h
    refine ⟨.openBracket :: (commas ++ .closeBracket :: more), ?_, ?_⟩
    · rw [cons_append, append_assoc, cons_append, ← hafter, takeWhile_append_dropWhile]
    · rw [hcommas] at hmore
      simpa using hmore
  | case2 => cases h
  | case3 =>
    cases h
    exact ⟨[], rfl, by simpa using hused⟩

theorem Denotes.length_pos (h : table.Denotes tokens type) : 0 < tokens.length := by
  cases h <;> (simp; try omega)

theorem DenotesAll.length_pos (h : table.DenotesAll tokens types) : 0 < tokens.length := by
  cases h with
  | one h => exact h.length_pos
  | more h =>
    rw [length_append]
    exact Nat.add_pos_left h.length_pos _

/-- What the reader reads at the front of some tokens is a word and its type; likewise for the
arguments of a generic type, after those read already. -/
theorem denotes_of_read (fuel : Nat) :
    (∀ tokens type rest, table.readType fuel tokens = .ok (type, rest) →
      ∃ used, tokens = used ++ rest ∧ table.Denotes used type) ∧
    (∀ read tokens types rest, table.readArguments fuel read tokens = .ok (types, rest) →
      ∃ used fresh, tokens = used ++ .greater :: rest ∧ types = read.reverse ++ fresh ∧
        table.DenotesAll used fresh) := by
  induction fuel with
  | zero =>
    constructor
    · intro tokens type rest h
      exact absurd h (by simp [readType])
    · intro read tokens types rest h
      exact absurd h (by simp [readArguments])
  | succ fuel ih =>
    constructor
    · intro tokens type rest h
      unfold readType at h
      split at h
      · cases h
      · rename_i smaller name after hfuel
        cases hfuel
        split at h
        · cases h
        · rename_i base hbase
          split at h
          · rename_i arguments
            split at h
            · cases h
            · rename_i types left harguments
              obtain ⟨used, fresh, rfl, rfl, hfresh⟩ := ih.2 _ _ _ _ harguments
              obtain ⟨more, rfl, hmore⟩ := (Denotes.generic hbase hfresh).of_readArrays h
              exact ⟨_, by simp, hmore⟩
          · obtain ⟨more, rfl, hmore⟩ := (Denotes.name hbase).of_readArrays h
            exact ⟨_, by simp, hmore⟩
      · cases h
    · intro read tokens types rest h
      unfold readArguments at h
      split at h
      · cases h
      · rename_i type after hfirst
        obtain ⟨first, rfl, hdenotes⟩ := ih.1 _ _ _ hfirst
        obtain ⟨used, fresh, rfl, rfl, hfresh⟩ := ih.2 _ _ _ _ h
        exact ⟨_, type :: fresh, by simp, by simp, .more hdenotes hfresh⟩
      · rename_i type after hfirst
        cases h
        obtain ⟨first, rfl, hdenotes⟩ := ih.1 _ _ _ hfirst
        exact ⟨first, [type], rfl, by simp, .one hdenotes⟩
      · cases h

theorem readArrays_brackets (bound commas : Nat) (type : Ty) (rest : List SpellingToken) :
    readArrays (bound + 1) type
    (.openBracket :: (List.replicate commas .comma ++ .closeBracket :: rest)) = readArrays bound
    (.array type (commas + 1)) rest := by
  have hall : ∀ token ∈ List.replicate commas SpellingToken.comma, (token == .comma) = true := by
    intro token htoken
    simp [eq_of_mem_replicate htoken]
  have hclose : (SpellingToken.closeBracket == .comma) = false := rfl
  rw [readArrays]
  simp only [takeWhile_append_of_pos hall, dropWhile_append_of_pos hall, takeWhile_cons,
    dropWhile_cons, hclose, Bool.false_eq_true, if_false, append_nil, length_replicate]

theorem readArrays_done (h : tokens.head? ≠ some .openBracket) :
    readArrays bound type tokens = .ok (type, tokens) := by
  fun_cases readArrays bound type tokens with
  | case1 => simp at h
  | case2 => simp at h
  | case3 => rfl

theorem readArrays_bound {other : Nat} (hbound : tokens.length ≤ bound)
    (hother : tokens.length ≤ other) :
    readArrays bound type tokens = readArrays other type tokens := by
  fun_induction readArrays bound type tokens generalizing other with
  | case1 bound type inner commas after hafter =>
    rename_i ih
    obtain ⟨other, rfl⟩ : ∃ less, other = less + 1 :=
      Nat.exists_eq_add_one.mpr (by simp at hother; omega)
    have hshorter := (dropWhile_suffix (· == SpellingToken.comma) (l := inner)).length_le
    simp only [hafter, length_cons] at hbound hother hshorter
    rw [readArrays, hafter]
    exact ih (by omega) (by omega)
  | case2 bound type inner hopen =>
    obtain ⟨other, rfl⟩ : ∃ less, other = less + 1 :=
      Nat.exists_eq_add_one.mpr (by simp at hother; omega)
    rw [readArrays]
    split
    · rename_i after hafter
      exact absurd hafter (hopen after)
    · rfl
  | case3 bound type tokens hopen =>
    refine (readArrays_done ?_).symm
    cases tokens with
    | nil => simp
    | cons token rest =>
      obtain ⟨less, rfl⟩ : ∃ less, bound = less + 1 :=
        Nat.exists_eq_add_one.mpr (by simp at hbound; omega)
      intro hhead
      cases hhead
      exact hopen less rest rfl rfl

mutual

theorem Denotes.readType_eq {used : List SpellingToken} {type : Ty} (h : table.Denotes used type)
    (fuel : Nat) (hfuel : 2 * used.length ≤ fuel + 1) (rest : List SpellingToken)
    (hrest : rest.head? ≠ some .less) :
    table.readType fuel (used ++ rest) = readArrays rest.length type rest := by
  cases h with
  | name hfind =>
    obtain ⟨fuel, rfl⟩ : ∃ less, fuel = less + 1 :=
      Nat.exists_eq_add_one.mpr (by simp at hfuel; omega)
    rw [singleton_append, readType]
    simp only [hfind]
    split
    · simp at hrest
    · rfl
  | @generic name base arguments types hfind harguments =>
    simp only [length_cons, length_append, length_nil] at hfuel
    obtain ⟨fuel, rfl⟩ : ∃ less, fuel = less + 1 := Nat.exists_eq_add_one.mpr (by omega)
    have hread := DenotesAll.readArguments_eq harguments fuel (by omega) [] rest
    simp only [cons_append, append_assoc, nil_append]
    rw [readType]
    simp only [hfind, hread, reverse_nil, nil_append]
  | @array tokens element commas helement =>
    simp only [length_cons, length_append, length_replicate, length_nil] at hfuel
    rw [append_assoc, cons_append, append_assoc, singleton_append,
      Denotes.readType_eq helement fuel (by omega) _ (by simp), length_cons, readArrays_brackets]
    exact readArrays_bound (by simp; omega) (Nat.le_refl _)

theorem DenotesAll.readArguments_eq {used : List SpellingToken} {types : List Ty}
    (h : table.DenotesAll used types) (fuel : Nat) (hfuel : 2 * used.length ≤ fuel) (read : List Ty)
    (rest : List SpellingToken) :
    table.readArguments fuel read
    (used ++ .greater :: rest) = .ok (read.reverse ++ types, rest) := by
  have hpos := h.length_pos
  obtain ⟨fuel, rfl⟩ : ∃ less, fuel = less + 1 := Nat.exists_eq_add_one.mpr (by omega)
  rw [readArguments]
  cases h with
  | @one _ type htype =>
    rw [Denotes.readType_eq htype fuel (by omega) _ (by simp), readArrays_done (by simp)]
    simp
  | @more first others type types htype htypes =>
    simp only [length_append, length_cons] at hfuel
    rw [append_assoc, cons_append, Denotes.readType_eq htype fuel (by omega) _ (by simp),
      readArrays_done (by simp)]
    simp only [DenotesAll.readArguments_eq htypes fuel (by omega) (type :: read) rest, reverse_cons,
      append_assoc, singleton_append]

end

/-- The reader reads exactly the words of the grammar, each as the type that it denotes. -/
theorem read_eq_ok_iff {spelling : String} :
    table.read spelling = .ok type ↔
      ∃ tokens, Lexes (trimmed spelling.toList) tokens ∧ table.Denotes tokens type := by
  constructor
  · intro h
    simp only [read] at h
    split at h
    · cases h
    · rename_i tokens htokens
      split at h
      · cases h
      · rename_i found hread
        cases h
        obtain ⟨used, rfl, hused⟩ := (denotes_of_read _).1 _ _ _ hread
        exact ⟨_, spellingTokens?_trimmed_iff.mp htokens, by simpa using hused⟩
      · cases h
  · rintro ⟨tokens, hlexes, hdenotes⟩
    have hread := hdenotes.readType_eq (2 * tokens.length + 2) (by omega) [] (by simp)
    rw [append_nil, readArrays_done (by simp)] at hread
    simp only [read, spellingTokens?_trimmed_iff.mpr hlexes, hread]

end TypeTable

end UnitySharp
