import UnitySharp.Proofs.Code.Wording

/-!
# Reading expressions back

The proof follows the levels of the reader: tokens that read as a primary read as an operand with
nothing in front of it, those as an operation without operators, and those as a whole
expression.  Primaries and operations are read from the left, so of those it is shown that the
reader comes to have read the whole, with fuel enough left.
-/

namespace UnitySharp

open List

variable {e : Expression} {m : Nat}

namespace Grammar

variable {ts rest more rs : List String} {n fuel least : Nat} {token type closing op : String}
  {pieces : List Piece} {isLoose : Bool} {es : List Expression}
  {target operand left right : Expression}

@[simp] theorem tokensOf_nil : tokensOf [] = [] := rfl

@[simp] theorem tokensOf_token (token : String) (pieces : List Piece) :
    tokensOf (.token token :: pieces) = token :: tokensOf pieces := rfl

@[simp] theorem tokensOf_blank (pieces : List Piece) :
    tokensOf (.blank :: pieces) = tokensOf pieces := rfl

@[simp] theorem tokensOf_append (pieces others : List Piece) :
    tokensOf (pieces ++ others) = tokensOf pieces ++ tokensOf others :=
  filterMap_append

@[simp] theorem tokensOf_spaced (token : String) : tokensOf (spaced token) = [token] := rfl

/-! ## Where the reader stops -/

def followerTokens : List String :=
  [".", "[", "(", "++", "--"]

def Closed (rest : List String) : Prop :=
  ∀ token ∈ rest.head?, token ∉ followerTokens

structure ClosedAt (least : Nat) (rest : List String) : Prop where
  closed : Closed rest
  loose : ∀ token ∈ rest.head?, ∀ level, level? token = some level → level < least

structure Ended (rest : List String) : Prop where
  closed : ClosedAt 0 rest
  final : ∀ token ∈ rest.head?, token ≠ "?" ∧ token ∉ assignmentOperators

theorem ClosedAt.mono {more : Nat} (h : ClosedAt least rest) (hle : least ≤ more) :
    ClosedAt more rest where
  closed := h.closed
  loose := fun token htoken level hlevel => Nat.lt_of_lt_of_le (h.loose token htoken level hlevel)
    hle

theorem ended_nil : Ended [] where
  closed := ⟨by simp [Closed], by simp⟩
  final := by simp

def enders : List String :=
  [")", "]", ",", ":"]

theorem ended_cons (h : token ∈ enders) (rest : List String) : Ended (token :: rest) := by
  have hall : ∀ token ∈ enders, token ∉ followerTokens ∧ level? token = none ∧ token ≠ "?" ∧
      token ∉ assignmentOperators := by decide
  obtain ⟨hfollower, hlevel, hfinal⟩ := hall token h
  refine ⟨⟨?_, ?_⟩, ?_⟩
  · rintro _ ⟨⟩
    exact hfollower
  · rintro _ ⟨⟩ level hsome
    rw [hlevel] at hsome
    cases hsome
  · rintro _ ⟨⟩
    exact hfinal

theorem closedAt_cons (h : token = "?" ∨ token ∈ assignmentOperators) (least : Nat)
    (rest : List String) :
    ClosedAt least (token :: rest) := by
  have hall : ∀ token ∈ "?" :: assignmentOperators, token ∉ followerTokens ∧
    level? token = none := by decide
  obtain ⟨hfollower, hlevel⟩ := hall token (mem_cons.mpr h)
  constructor
  · rintro _ ⟨⟩
    exact hfollower
  · rintro _ ⟨⟩ level hsome
    rw [hlevel] at hsome
    cases hsome

theorem followers_closed (h : Closed rest) (hfuel : 0 < fuel) (e : Expression) :
    followers fuel e rest = some (e, rest) := by
  obtain ⟨fuel, rfl⟩ := Nat.exists_eq_succ_of_ne_zero (Nat.ne_of_gt hfuel)
  cases rest with
  | nil => rfl
  | cons token rest =>
    have hnot := h token rfl
    simp only [followerTokens, mem_cons, not_mem_nil, or_false, not_or] at hnot
    simp [followers, rearOperators, hnot]

theorem operators_closed (h : ClosedAt least rest) (hfuel : 0 < fuel) (e : Expression) :
    operators fuel least e rest = some (e, rest) := by
  obtain ⟨fuel, rfl⟩ := Nat.exists_eq_succ_of_ne_zero (Nat.ne_of_gt hfuel)
  cases rest with
  | nil => rfl
  | cons token rest =>
    cases hlevel : level? token with
    | none => simp [operators, hlevel]
    | some level => simp [operators, hlevel, h.loose token rfl level hlevel]

/-! ## What tokens read as -/

def ReadsWhole (ts : List String) (e : Expression) : Prop :=
  ∀ fuel rest, 6 * ts.length ≤ fuel → Ended rest → expression fuel (ts ++ rest) = some (e, rest)

def ReadsOperation (ts : List String) (n : Nat) (e : Expression) : Prop :=
  ∀ fuel least rest, 6 * ts.length ≤ fuel + 1 → least + 3 ≤ n → ClosedAt (n - 2) rest →
    ∃ left, fuel + 2 ≤ left + 6 * ts.length ∧
      operation fuel least (ts ++ rest) = operators left least e rest

def ReadsUnary (ts : List String) (e : Expression) : Prop :=
  ∀ fuel rest, 6 * ts.length ≤ fuel + 2 → Closed rest → unary fuel (ts ++ rest) = some (e, rest)

def ReadsPrimary (ts : List String) (e : Expression) : Prop :=
  ∀ fuel rest, 6 * ts.length ≤ fuel + 3 →
    ∃ left, fuel + 4 ≤ left + 6 * ts.length ∧ primary fuel (ts ++ rest) = followers left e rest

structure BeginsOperand (ts : List String) : Prop where
  notCast : ∀ rest, cast? (ts ++ rest) = none
  first : ∀ token ∈ ts.head?, beginsCastOperand token = true ∧ token ∉ frontOperators

structure Opens (isLoose : Bool) (ts : List String) : Prop where
  first : ∃ first, ts.head? = some first ∧ first ≠ ")" ∧ first ≠ "]"
  second : ts.tail.head? ≠ some ")"
  many : isLoose = true → ts.tail ≠ []

/-- Tokens read as an expression of some strength, wherever an expression of that strength may
stand. -/
structure ReadsAs (ts : List String) (n : Nat) (e : Expression) : Prop where
  opens : Opens (n < 14) ts
  whole : ReadsWhole ts e
  operation : 3 ≤ n → ReadsOperation ts n e
  unary : 13 ≤ n → ReadsUnary ts e
  primary : 14 ≤ n → ReadsPrimary ts e
  operand : 14 ≤ n → BeginsOperand ts

theorem Opens.length_pos (h : Opens isLoose ts) : 0 < ts.length := by
  obtain ⟨first, hfirst, _⟩ := h.first
  cases ts with
  | nil => cases hfirst
  | cons => simp

theorem readsWhole_of_operation (hn : 3 ≤ n) (h : ReadsOperation ts n e) (hlength : 0 < ts.length) :
    ReadsWhole ts e := by
  intro fuel rest hfuel hended
  obtain ⟨fuel, rfl⟩ : ∃ k, fuel = k + 1 := ⟨fuel - 1, by omega⟩
  obtain ⟨left, hleft, hread⟩ :=
    h fuel 0 rest (by omega) (by omega) (hended.closed.mono (Nat.zero_le _))
  rw [operators_closed hended.closed (by omega)] at hread
  simp only [expression, hread, Option.bind_eq_bind, Option.bind_some]
  cases rest with
  | nil => rfl
  | cons token rest =>
    obtain ⟨hquestion, hassign⟩ := hended.final token rfl
    simp [hquestion, hassign]

theorem readsOperation_of_unary (h : ReadsUnary ts e) (hlength : 0 < ts.length) :
    ReadsOperation ts n e := by
  intro fuel least rest hfuel _ hclosed
  obtain ⟨fuel, rfl⟩ : ∃ k, fuel = k + 1 := ⟨fuel - 1, by omega⟩
  refine ⟨fuel, by omega, ?_⟩
  simp [operation, h fuel rest (by omega) hclosed.closed]

theorem readsUnary_of_primary (h : ReadsPrimary ts e) (hoperand : BeginsOperand ts)
    (hlength : 0 < ts.length) :
    ReadsUnary ts e := by
  intro fuel rest hfuel hclosed
  obtain ⟨fuel, rfl⟩ : ∃ k, fuel = k + 1 := ⟨fuel - 1, by omega⟩
  obtain ⟨left, hleft, hread⟩ := h fuel rest (by omega)
  rw [followers_closed hclosed (by omega)] at hread
  cases ts with
  | nil => cases hlength
  | cons token more =>
    have hcast := hoperand.notCast rest
    have hfront := (hoperand.first token rfl).2
    rw [cons_append] at hcast hread ⊢
    simp [Grammar.unary, hcast, hfront, hread]

theorem ReadsAs.of_operation (hlow : 3 ≤ n) (hhigh : n < 13) (hopens : Opens true ts)
    (h : ReadsOperation ts n e) :
    ReadsAs ts n e where
  opens := by
    rw [decide_eq_true (by omega)]
    exact hopens
  whole := readsWhole_of_operation hlow h hopens.length_pos
  operation := fun _ => h
  unary := by omega
  primary := by omega
  operand := by omega

theorem ReadsAs.of_unary (hopens : Opens true ts) (h : ReadsUnary ts e) : ReadsAs ts 13 e where
  opens := hopens
  whole := readsWhole_of_operation (by decide) (readsOperation_of_unary
    (n := 13) h hopens.length_pos) hopens.length_pos
  operation := fun _ => readsOperation_of_unary h hopens.length_pos
  unary := fun _ => h
  primary := by omega
  operand := by omega

theorem ReadsAs.of_primary (hopens : Opens false ts) (hoperand : BeginsOperand ts)
    (h : ReadsPrimary ts e) :
    ReadsAs ts 14 e := by
  have hunary := readsUnary_of_primary h hoperand hopens.length_pos
  have hoperation : ReadsOperation ts 14 e := readsOperation_of_unary hunary hopens.length_pos
  exact
    { opens := hopens
      whole := readsWhole_of_operation (by decide) hoperation hopens.length_pos
      operation := fun _ => hoperation
      unary := fun _ => hunary
      primary := fun _ => h
      operand := fun _ => hoperand }

/-! ## Parentheses -/

theorem Opens.append (h : Opens isLoose ts) (hmore : more.head? ≠ some ")") (hne : more ≠ [])
    (isLooser : Bool) :
    Opens isLooser (ts ++ more) := by
  obtain ⟨first, hfirst, hbracket⟩ := h.first
  cases ts with
  | nil => cases hfirst
  | cons token tail =>
    refine ⟨⟨first, hfirst, hbracket⟩, ?_, by simp [hne]⟩
    cases tail with
    | nil => exact hmore
    | cons => exact h.second

theorem ReadsAs.enclosed (h : ReadsAs ts n e) (hloose : n < 14) :
    ReadsAs ("(" :: ts ++ [")"]) 14 e := by
  obtain ⟨first, hfirst, hclose, _⟩ := h.opens.first
  apply ReadsAs.of_primary
  · refine ⟨⟨"(", rfl, by decide, by decide⟩, ?_, by simp⟩
    cases ts with
    | nil => cases hfirst
    | cons => simpa using fun heq => hclose (by simpa [heq] using hfirst.symm)
  · constructor
    · intro rest
      have hmany := h.opens.many (decide_eq_true hloose)
      have hsecond := h.opens.second
      -- A cast would have its parenthesis closed after one token, and here there are two at least.
      match ts, hmany, hsecond with
      | _ :: second :: more, _, hsecond =>
        have hopen : second ≠ ")" := by simpa using hsecond
        cases more <;> simp [cast?, hopen]
    · rintro _ ⟨⟩
      decide
  · intro fuel rest hfuel
    have hlength : ("(" :: ts ++ [")"]).length = ts.length + 2 := by simp
    rw [hlength] at hfuel ⊢
    obtain ⟨fuel, rfl⟩ : ∃ k, fuel = k + 2 := ⟨fuel - 2, by omega⟩
    refine ⟨fuel + 1, by omega, ?_⟩
    have hread := h.whole fuel (")" :: rest) (by omega) (ended_cons (by decide) rest)
    have hatom : atom (fuel + 1) ("(" :: ts ++ [")"] ++ rest) = some (e, rest) := by
      simp [atom, hread]
    simp only [Grammar.primary, hatom, Option.bind_eq_bind, Option.bind_some]

theorem ReadsAs.operand_of (h : ReadsAs (tokensOf pieces) n e) (isLoose : Bool)
    (hloose : isLoose = true → n < 14) (htight : isLoose = false → m ≤ n) (hm : m ≤ 14) :
    ∃ k, m ≤ k ∧ ReadsAs (tokensOf (Grammar.enclosed isLoose pieces)) k e := by
  cases isLoose with
  | false => exact ⟨n, htight rfl, h⟩
  | true => exact ⟨14, hm, by simpa [Grammar.enclosed] using h.enclosed (hloose rfl)⟩

/-! ## Words, literals and types -/

theorem cast?_of_ne (h : token ≠ "(") (rest : List String) : cast? (token :: rest) = none := by
  match rest with
  | [] => rfl
  | [_] => rfl
  | [_, _] => rfl
  | _ :: _ :: _ :: _ => simp [cast?, h]

theorem readsAs_of_atom (hopens : Opens false ts) (hoperand : BeginsOperand ts)
    (h : ∀ fuel rest, 6 * ts.length ≤ fuel + 4 → atom fuel (ts ++ rest) = some (e, rest)) :
      ReadsAs ts 14 e := by
  apply ReadsAs.of_primary hopens hoperand
  intro fuel rest hfuel
  have hlength := hopens.length_pos
  obtain ⟨fuel, rfl⟩ : ∃ k, fuel = k + 1 := ⟨fuel - 1, by omega⟩
  refine ⟨fuel, by omega, ?_⟩
  simp [Grammar.primary, h fuel rest (by omega)]

theorem readsAs_of_token (hbegins : beginsCastOperand token = true)
    (hfront : token ∉ frontOperators) (hbrackets : token ∉ ["(", ")", "]"])
    (h : ∀ fuel rest, atom (fuel + 1) (token :: rest) = some (e, rest)) :
    ReadsAs [token] 14 e := by
  simp only [mem_cons, not_mem_nil, or_false, not_or] at hbrackets
  apply readsAs_of_atom
  · exact ⟨⟨token, rfl, hbrackets.2.1, hbrackets.2.2⟩, by simp, by simp⟩
  · constructor
    · exact cast?_of_ne hbrackets.1
    · rintro _ ⟨⟩
      exact ⟨hbegins, hfront⟩
  · intro fuel rest hfuel
    obtain ⟨fuel, rfl⟩ : ∃ k, fuel = k + 1 := ⟨fuel - 1, by simp at hfuel; omega⟩
    exact h fuel rest

theorem ne_of_isName (h : isName token = true) {word : String} (hword : word ∈ keywords) :
    token ≠ word := by
  rintro rfl
  simp [isName, hword] at h

theorem not_mem_of_isIdentifier (h : isIdentifier token = true) :
    token ∉ frontOperators ∧ token ∉ ["(", ")", "]"] := by
  have hfront : ∀ op ∈ frontOperators, isIdentifier op = false := by decide
  have hbracket : ∀ op ∈ ["(", ")", "]"], isIdentifier op = false := by decide
  constructor
  · intro hmem
    rw [hfront token hmem] at h
    cases h
  · intro hmem
    rw [hbracket token hmem] at h
    cases h

theorem isLiteral_of_isName (h : isName token = true) : isLiteral token = false := by
  obtain ⟨c, _, hfirst, _, hc, _⟩ := ends_of_isIdentifier (isIdentifier_of_isName h)
  rw [← Bool.not_eq_true]
  intro hliteral
  simp only [isLiteral, Bool.or_eq_true, contains_iff_mem] at hliteral
  rcases hliteral with (hword | hnumber) | hquoted
  · have hall : ∀ word ∈ ["null", "true", "false"], word ∈ keywords := by decide
    exact ne_of_isName h (hall token hword) rfl
  · obtain ⟨d, _, hdigit, _, hd, _⟩ := ends_of_isNumber hnumber
    rw [hfirst] at hdigit
    cases hdigit
    rcases hc with hstart | rfl
    · rw [isDigit_of_isIdentifierStart hstart] at hd
      cases hd
    · cases hd
  · cases hcs : token.toList with
    | nil => simp [hcs] at hfirst
    | cons mark rest =>
      simp only [hcs, isQuoted, Bool.and_eq_true, Bool.or_eq_true, beq_iff_eq] at hquoted
      rw [hcs] at hfirst
      cases hfirst
      rcases hquoted.1 with rfl | rfl <;> rcases hc with hstart | hat <;>
        first | cases hstart | cases hat

theorem readsAs_name (h : isName token = true) : ReadsAs [token] 14 (.name token) := by
  have hidentifier := isIdentifier_of_isName h
  obtain ⟨hfront, hbrackets⟩ := not_mem_of_isIdentifier hidentifier
  apply readsAs_of_token _ hfront hbrackets
  · intro fuel rest
    have hopen : token ≠ "(" := fun heq => hbrackets (by simp [heq])
    simp [atom, ne_of_isName h (show "this" ∈ keywords by decide),
      ne_of_isName h (show "base" ∈ keywords by decide),
      ne_of_isName h (show "typeof" ∈ keywords by decide),
      ne_of_isName h (show "new" ∈ keywords by decide), hopen, isLiteral_of_isName h, h]
  · simp [beginsCastOperand, hidentifier, ne_of_isName h (show "as" ∈ keywords by decide),
      ne_of_isName h (show "is" ∈ keywords by decide)]

theorem readsAs_self : ReadsAs ["this"] 14 .selfRef :=
  readsAs_of_token (by decide) (by decide) (by decide) fun _ _ => rfl

theorem readsAs_super : ReadsAs ["base"] 14 .superRef :=
  readsAs_of_token (by decide) (by decide) (by decide) fun _ _ => rfl

theorem readsAs_literal (h : isLiteral token = true) : ReadsAs [token] 14 (.literal token) := by
  have hall : ∀ word ∈ frontOperators ++ ["(", ")", "]"] ++ ["this", "base", "typeof", "new"],
    isLiteral word = false := by
    decide
  have hne : ∀ word ∈ frontOperators ++ ["(", ")", "]"] ++ ["this", "base", "typeof", "new"],
    token ≠ word := by
    rintro word hword rfl
    rw [hall token hword] at h
    cases h
  apply readsAs_of_token
  · simp [beginsCastOperand, h]
  · exact fun hmem => hne token (by simp [hmem]) rfl
  · exact fun hmem => hne token (by simp only [mem_append, hmem, or_true, true_or]) rfl
  · intro fuel rest
    simp [atom, hne "this" (by decide), hne "base" (by decide), hne "typeof" (by decide),
      hne "new" (by decide), hne "(" (by decide), h]

theorem readsAs_typeOf (h : isType type = true) :
    ReadsAs ["typeof", "(", type, ")"] 14 (.typeOf type) := by
  apply readsAs_of_atom
  · exact ⟨⟨"typeof", rfl, by decide, by decide⟩, by simp, by simp⟩
  · constructor
    · exact fun _ => cast?_of_ne (by decide) _
    · rintro _ ⟨⟩
      decide
  · intro fuel rest hfuel
    obtain ⟨fuel, rfl⟩ : ∃ k, fuel = k + 1 := ⟨fuel - 1, by simp at hfuel; omega⟩
    simp [atom, h]

/-! ## Arguments -/

theorem tokensOf_listPieces (e : Expression) (next : Expression) (rest : List Expression) :
    tokensOf (Expression.listPieces (e :: next :: rest)) =
      tokensOf e.pieces ++ "," :: tokensOf (Expression.listPieces (next :: rest)) := by
  simp [Expression.listPieces]

theorem someArguments_read (hclosing : closing = ")" ∨ closing = "]") (hne : es ≠ [])
    (h : ∀ e ∈ es, ReadsAs (tokensOf e.pieces) e.strength e) (fuel : Nat) (rest : List String)
    (hfuel : 6 * (tokensOf (Expression.listPieces es)).length + 1 ≤ fuel) :
    someArguments fuel closing (tokensOf (Expression.listPieces es) ++ closing :: rest) =
      some (es, rest) := by
  have hender : closing ∈ enders := by rcases hclosing with rfl | rfl <;> decide
  have hcomma : "," ≠ closing := by rcases hclosing with rfl | rfl <;> decide
  induction es generalizing fuel with
  | nil => exact absurd rfl hne
  | cons e es ih =>
    obtain ⟨fuel, rfl⟩ : ∃ k, fuel = k + 1 := ⟨fuel - 1, by omega⟩
    have he := h e mem_cons_self
    cases es with
    | nil =>
      have hread := he.whole fuel (closing :: rest) (by simpa [Expression.listPieces] using hfuel)
        (ended_cons hender rest)
      simp [someArguments, Expression.listPieces, hread]
    | cons next es =>
      rw [tokensOf_listPieces, length_append, length_cons] at hfuel
      have hrest := ih (by simp) (fun f hf => h f (mem_cons_of_mem _ hf)) fuel (by omega)
      have hread := he.whole fuel
        ("," :: (tokensOf (Expression.listPieces (next :: es)) ++ closing :: rest)) (by omega)
        (ended_cons (by decide) _)
      rw [tokensOf_listPieces, append_assoc, cons_append]
      simp [someArguments, hread, hcomma, hrest]

theorem arguments_read (hclosing : closing = ")" ∨ closing = "]")
    (h : ∀ e ∈ es, ReadsAs (tokensOf e.pieces) e.strength e) (fuel : Nat) (rest : List String)
    (hfuel : 6 * (tokensOf (Expression.listPieces es)).length + 2 ≤ fuel) :
    arguments fuel closing (tokensOf (Expression.listPieces es) ++ closing :: rest) =
      some (es, rest) := by
  obtain ⟨fuel, rfl⟩ : ∃ k, fuel = k + 1 := ⟨fuel - 1, by omega⟩
  cases es with
  | nil => simp [arguments, Expression.listPieces]
  | cons e es =>
    have hread := someArguments_read hclosing (by simp) h fuel rest (by omega)
    obtain ⟨first, hfirst, hbrackets⟩ := (h e mem_cons_self).opens.first
    have hopen : first ≠ closing := by
      rcases hclosing with rfl | rfl
      · exact hbrackets.1
      · exact hbrackets.2
    -- The first token is that of the first expression, which closes nothing.
    have hhead : ∃ more, tokensOf (Expression.listPieces (e :: es)) = first :: more := by
      cases htokens : tokensOf e.pieces with
      | nil => simp [htokens] at hfirst
      | cons token more =>
        rw [htokens] at hfirst
        cases hfirst
        cases es with
        | nil => exact ⟨more, by simp [Expression.listPieces, htokens]⟩
        | cons next es => exact ⟨_, by rw [tokensOf_listPieces, htokens, cons_append]⟩
    obtain ⟨more, hmore⟩ := hhead
    rw [hmore, cons_append] at hread ⊢
    simp [arguments, hopen, hread]

/-! ## What follows an operand -/

theorem ReadsAs.follow (h : ReadsAs ts n target) (hn : 14 ≤ n) (hmore : more.head? ≠ some ")")
    (hne : more ≠ [])
    (hstep : ∀ fuel rest, 6 * more.length ≤ fuel + 1 → followers (fuel + 1) target (more ++ rest) =
      followers fuel e rest) :
    ReadsAs (ts ++ more) 14 e := by
  obtain ⟨hcast, hfirst⟩ := h.operand hn
  apply ReadsAs.of_primary (h.opens.append hmore hne false)
  · constructor
    · intro rest
      rw [append_assoc]
      exact hcast (more ++ rest)
    · have hlength := h.opens.length_pos
      cases ts with
      | nil => cases hlength
      | cons => exact hfirst
  · intro fuel rest hfuel
    have hlength : 0 < more.length := length_pos_iff.mpr hne
    rw [length_append] at hfuel ⊢
    obtain ⟨left, hleft, hread⟩ := h.primary hn fuel (more ++ rest) (by omega)
    obtain ⟨left, rfl⟩ : ∃ k, left = k + 1 := ⟨left - 1, by omega⟩
    refine ⟨left, by omega, ?_⟩
    rw [append_assoc, hread, hstep left rest (by omega)]

theorem ReadsAs.member {field : String} (h : ReadsAs ts n target) (hn : 14 ≤ n)
    (hfield : isIdentifier field = true) :
    ReadsAs (ts ++ [".", field]) 14 (.member target field) := by
  apply h.follow hn (by simp) (by simp)
  intro fuel rest _
  simp [followers, hfield]

theorem ReadsAs.index {target : Expression} {es : List Expression} (h : ReadsAs ts n target)
    (hn : 14 ≤ n) (hes : ∀ e ∈ es, ReadsAs (tokensOf e.pieces) e.strength e) :
    ReadsAs (ts ++ "[" :: tokensOf (Expression.listPieces es) ++ ["]"]) 14 (.index target es) := by
  rw [append_assoc]
  apply h.follow hn (by simp) (by simp)
  intro fuel rest hfuel
  have hread := arguments_read (Or.inr rfl) hes fuel rest (by simp at hfuel; omega)
  simp [followers, hread]

theorem ReadsAs.call {target : Expression} {es : List Expression} (h : ReadsAs ts n target)
    (hn : 14 ≤ n) (hes : ∀ e ∈ es, ReadsAs (tokensOf e.pieces) e.strength e) :
    ReadsAs (ts ++ "(" :: tokensOf (Expression.listPieces es) ++ [")"]) 14 (.call target es) := by
  rw [append_assoc]
  apply h.follow hn (by simp) (by simp)
  intro fuel rest hfuel
  have hread := arguments_read (Or.inl rfl) hes fuel rest (by simp at hfuel; omega)
  simp [followers, hread]

theorem isType_of_isName (h : isName token = true) : isType token = true := by
  obtain ⟨c, d, hfirst, hlast, hc, hd⟩ := ends_of_isIdentifier (isIdentifier_of_isName h)
  have hbegins : beginsWord c = true := by
    rcases hc with hstart | rfl
    · simp [beginsWord, hstart]
    · rfl
  have hends : beginsWord d = true ∨ isDigit d = true := by
    rw [isIdentifierPart, Bool.or_eq_true] at hd
    rcases hd with hstart | hdigit
    · exact Or.inl (by simp [beginsWord, hstart])
    · exact Or.inr hdigit
  have hkeyword : token ∉ keywords := fun hmem => ne_of_isName h hmem rfl
  rcases hends with hend | hend <;> simp [isType, isWordLike, hfirst, hlast, hbegins, hend,
    hkeyword]

theorem readsAs_create (h : isName type = true)
    (hes : ∀ e ∈ es, ReadsAs (tokensOf e.pieces) e.strength e) :
    ReadsAs ("new" :: type :: "(" :: tokensOf (Expression.listPieces es) ++ [")"]) 14
    (.create type es) := by
  obtain ⟨_, hbrackets⟩ := not_mem_of_isIdentifier (isIdentifier_of_isName h)
  have hclose : type ≠ ")" := fun heq => hbrackets (by simp [heq])
  apply readsAs_of_atom
  · exact ⟨⟨"new", rfl, by decide, by decide⟩, by simpa using hclose, by simp⟩
  · constructor
    · exact fun _ => cast?_of_ne (by decide) _
    · rintro _ ⟨⟩
      decide
  · intro fuel rest hfuel
    have hlength : 6 * (tokensOf (Expression.listPieces es)).length + 20 ≤ fuel := by
      simp at hfuel
      omega
    obtain ⟨fuel, rfl⟩ : ∃ k, fuel = k + 1 := ⟨fuel - 1, by omega⟩
    have hread := arguments_read (Or.inl rfl) hes fuel rest (by omega)
    simp [atom, isType_of_isName h, hread]

theorem ReadsAs.postfixed (h : ReadsAs ts n operand) (hn : 14 ≤ n) (hop : op ∈ rearOperators) :
    ReadsAs (ts ++ [op]) 13 (.postfixed op operand) := by
  have hall : ∀ op ∈ rearOperators, op ≠ ")" ∧ op ≠ "." ∧ op ≠ "[" ∧ op ≠ "(" := by decide
  obtain ⟨hclose, hdot, hbracket, hopen⟩ := hall op hop
  have hprimary : ReadsAs (ts ++ [op]) 14 (.postfixed op operand) := by
    apply h.follow hn (by simpa using hclose) (by simp)
    intro fuel rest _
    simp [followers, hdot, hbracket, hopen, hop]
  exact ReadsAs.of_unary (h.opens.append (by simpa using hclose) (by simp) true)
    (hprimary.unary (by decide))

/-! ## What stands in front of an operand -/

theorem ReadsAs.prefixed (h : ReadsAs ts n operand) (hn : 13 ≤ n) (hop : op ∈ frontOperators) :
    ReadsAs (op :: ts) 13 (.prefixed op operand) := by
  have hall : ∀ op ∈ frontOperators, op ≠ ")" ∧ op ≠ "]" ∧ op ≠ "(" := by decide
  obtain ⟨hclose, hbracket, hopen⟩ := hall op hop
  obtain ⟨first, hfirst, hfirstClose, _⟩ := h.opens.first
  have hlength := h.opens.length_pos
  apply ReadsAs.of_unary
  · refine ⟨⟨op, rfl, hclose, hbracket⟩, ?_, ?_⟩
    · rw [tail_cons, hfirst]
      simpa using hfirstClose
    · rintro - hnil
      rw [tail_cons] at hnil
      simp [hnil] at hlength
  · intro fuel rest hfuel hclosed
    rw [length_cons] at hfuel
    obtain ⟨fuel, rfl⟩ : ∃ k, fuel = k + 1 := ⟨fuel - 1, by omega⟩
    have hread := h.unary hn fuel rest (by omega) hclosed
    have hcast : cast? (op :: (ts ++ rest)) = none := cast?_of_ne hopen _
    simp [Grammar.unary, hcast, hop, hread]

theorem ReadsAs.cast (h : ReadsAs ts n operand) (hn : 14 ≤ n) (htype : isType type = true) :
    ReadsAs ("(" :: type :: ")" :: ts) 13 (.cast type operand) := by
  have hclose : type ≠ ")" := by
    rintro rfl
    revert htype
    decide
  apply ReadsAs.of_unary
  · exact ⟨⟨"(", rfl, by decide, by decide⟩, by simpa using hclose, by simp⟩
  · intro fuel rest hfuel hclosed
    rw [length_cons, length_cons, length_cons] at hfuel
    obtain ⟨fuel, rfl⟩ : ∃ k, fuel = k + 1 := ⟨fuel - 1, by omega⟩
    have hread := h.unary (by omega) fuel rest (by omega) hclosed
    obtain ⟨first, hfirst, _⟩ := h.opens.first
    have hbegins := ((h.operand hn).first first hfirst).1
    cases ts with
    | nil => cases hfirst
    | cons token more =>
      cases hfirst
      rw [cons_append] at hread
      simp [Grammar.unary, cast?, htype, hbegins, hread]

/-! ## Operators between operands -/

theorem level_of_binaryOperator (h : op ∈ binaryOperators) :
    ∃ level, level? op = some level ∧ operatorPrecedence op = level + 3 ∧ level < 10 ∧ op ≠ "as" ∧
      op ∉ followerTokens ∧ op ≠ ")" := by
  have hall : ∀ op ∈ binaryOperators, level? op = some (operatorPrecedence op - 3) ∧
      3 ≤ operatorPrecedence op ∧ operatorPrecedence op < 13 ∧ op ≠ "as" ∧ op ∉ followerTokens ∧
      op ≠ ")" := by decide
  obtain ⟨hlevel, hlow, hhigh, hother⟩ := hall op h
  exact ⟨operatorPrecedence op - 3, hlevel, by omega, by omega, hother⟩

theorem ReadsAs.binary (hop : op ∈ binaryOperators) (hleft : ReadsAs ts n left)
    (hright : ReadsAs rs m right) (hn : operatorPrecedence op ≤ n)
    (hm : operatorPrecedence op < m) :
    ReadsAs (ts ++ op :: rs) (operatorPrecedence op) (.binary op left right) := by
  obtain ⟨level, hlevel, hprecedence, hbound, has, hfollower, hclose⟩ := level_of_binaryOperator hop
  rw [hprecedence] at hn hm ⊢
  apply ReadsAs.of_operation (by omega) (by omega)
    (hleft.opens.append (by simpa using hclose) (by simp) true)
  intro fuel least rest hfuel hleast hclosed
  have hlength : (ts ++ op :: rs).length = ts.length + rs.length + 1 := by simp; omega
  rw [hlength] at hfuel ⊢
  have hhere : ClosedAt (n - 2) (op :: rs ++ rest) := by
    constructor
    · rintro _ ⟨⟩
      exact hfollower
    · rintro _ ⟨⟩ found hfound
      rw [hlevel] at hfound
      cases hfound
      omega
  obtain ⟨after, hafter, hread⟩ := hleft.operation (by omega) fuel least
    (op :: rs ++ rest) (by omega) (by omega) hhere
  obtain ⟨after, rfl⟩ : ∃ k, after = k + 1 := ⟨after - 1, by omega⟩
  obtain ⟨last, hlast, hreadRight⟩ :=
    hright.operation (by omega) after (level + 1) rest (by omega) (by omega)
    (hclosed.mono (by omega))
  rw [operators_closed (hclosed.mono (by omega)) (by omega)] at hreadRight
  refine ⟨after, by omega, ?_⟩
  rw [append_assoc, hread, cons_append]
  simp [operators, hlevel, show ¬level < least by omega, has, hreadRight]

theorem ReadsAs.tryCast (h : ReadsAs ts n operand) (hn : 9 ≤ n) (htype : isType type = true) :
    ReadsAs (ts ++ ["as", type]) 9 (.tryCast operand type) := by
  apply ReadsAs.of_operation (by omega) (by omega) (h.opens.append (by simp) (by simp) true)
  intro fuel least rest hfuel hleast hclosed
  have hlength : (ts ++ ["as", type]).length = ts.length + 2 := by simp
  rw [hlength] at hfuel ⊢
  have hlevel : level? "as" = some 6 := by decide
  have hhere : ClosedAt (n - 2) (["as", type] ++ rest) := by
    constructor
    · rintro _ ⟨⟩
      decide
    · rintro _ ⟨⟩ found hfound
      rw [hlevel] at hfound
      cases hfound
      omega
  obtain ⟨after, hafter, hread⟩ :=
    h.operation (by omega) fuel least (["as", type] ++ rest) (by omega) (by omega) hhere
  obtain ⟨after, rfl⟩ : ∃ k, after = k + 1 := ⟨after - 1, by omega⟩
  refine ⟨after, by omega, ?_⟩
  rw [append_assoc, hread]
  simp [operators, hlevel, show ¬6 < least by omega, htype]

/-! ## Conditionals and assignments -/

theorem ReadsAs.of_whole (hn : n < 3) (hopens : Opens true ts) (h : ReadsWhole ts e) :
    ReadsAs ts n e where
  opens := by
    rw [decide_eq_true (by omega)]
    exact hopens
  whole := h
  operation := by omega
  unary := by omega
  primary := by omega
  operand := by omega

theorem ReadsAs.operation_before (h : ReadsAs ts n e) (hn : 3 ≤ n)
    (htoken : token = "?" ∨ token ∈ assignmentOperators) (hfuel : 6 * ts.length ≤ fuel + 1)
    (rest : List String) :
    Grammar.operation fuel 0 (ts ++ token :: rest) = some (e, token :: rest) := by
  obtain ⟨left, hleft, hread⟩ := h.operation hn fuel 0
    (token :: rest) hfuel (by omega) (closedAt_cons htoken _ _)
  rw [hread, operators_closed (closedAt_cons htoken _ _) (by omega)]

theorem readsAs_conditional {cs ys ns : List String} {condition yes no : Expression} {a b c : Nat}
    (hcondition : ReadsAs cs a condition) (hyes : ReadsAs ys b yes) (hno : ReadsAs ns c no)
    (ha : 3 ≤ a) :
    ReadsAs (cs ++ "?" :: (ys ++ ":" :: ns)) 2 (.conditional condition yes no) := by
  apply ReadsAs.of_whole (by decide) (hcondition.opens.append (by simp) (by simp) true)
  intro fuel rest hfuel hended
  have hlength : (cs ++ "?" :: (ys ++ ":" :: ns)).length = cs.length + ys.length + ns.length +
    2 := by simp; omega
  rw [hlength] at hfuel
  obtain ⟨fuel, rfl⟩ : ∃ k, fuel = k + 1 := ⟨fuel - 1, by omega⟩
  have hread := hcondition.operation_before ha (Or.inl rfl) (show 6 * cs.length ≤ fuel + 1 by omega)
    (ys ++ ":" :: (ns ++ rest))
  have hreadYes := hyes.whole fuel (":" :: (ns ++ rest)) (by omega) (ended_cons (by decide) _)
  have hreadNo := hno.whole fuel rest (by omega) hended
  simp [expression, hread, hreadYes, hreadNo]

theorem readsAs_assign (hop : op ∈ assignmentOperators) (hleft : ReadsAs ts n left)
    (hright : ReadsAs rs m right) (hn : 3 ≤ n) : ReadsAs
    (ts ++ op :: rs) 1 (.assign op left right) := by
  have hall : ∀ op ∈ assignmentOperators, op ≠ "?" ∧ op ≠ ")" := by decide
  obtain ⟨hquestion, hclose⟩ := hall op hop
  apply ReadsAs.of_whole (by decide) (hleft.opens.append (by simpa using hclose) (by simp) true)
  intro fuel rest hfuel hended
  have hlength : (ts ++ op :: rs).length = ts.length + rs.length + 1 := by simp; omega
  rw [hlength] at hfuel
  obtain ⟨fuel, rfl⟩ : ∃ k, fuel = k + 1 := ⟨fuel - 1, by omega⟩
  have hread := hleft.operation_before hn (Or.inr hop) (show 6 * ts.length ≤ fuel + 1 by omega)
    (rs ++ rest)
  have hreadRight := hright.whole fuel rest (by omega) hended
  simp [expression, hread, hreadRight, hquestion, hop]

end Grammar

/-! ## All expressions -/

namespace Expression

open Grammar

theorem readsAs_operand (h : ReadsAs (tokensOf e.pieces) e.strength e) (hm : m ≤ 14) :
    ∃ k, m ≤ k ∧ ReadsAs (tokensOf (enclosed (e.strength < m) e.pieces)) k e :=
  h.operand_of _ (fun hloose => Nat.lt_of_lt_of_le (of_decide_eq_true hloose) hm)
    (fun htight => Nat.le_of_not_lt (of_decide_eq_false htight)) hm

theorem readsAs_operand_le (h : ReadsAs (tokensOf e.pieces) e.strength e) (hm : m < 14) :
    ∃ k, m < k ∧ ReadsAs (tokensOf (enclosed (e.strength ≤ m) e.pieces)) k e :=
  h.operand_of _ (fun hloose => Nat.lt_of_le_of_lt (of_decide_eq_true hloose) hm)
    (fun htight => Nat.lt_of_not_le (of_decide_eq_false htight)) hm

mutual

theorem readsAs : (e : Expression) → e.isLegal = true → ReadsAs (tokensOf e.pieces) e.strength e
  | .name _, h => readsAs_name h
  | .selfRef, _ => readsAs_self
  | .superRef, _ => readsAs_super
  | .literal _, h => readsAs_literal h
  | .member target field, h => by
      simp only [isLegal, Bool.and_eq_true] at h
      obtain ⟨k, hk, htarget⟩ := readsAs_operand (readsAs target h.1) (Nat.le_refl 14)
      rw [pieces, tokensOf_append]
      exact htarget.member hk h.2
  | .index target indices, h => by
      simp only [isLegal, Bool.and_eq_true] at h
      obtain ⟨k, hk, htarget⟩ := readsAs_operand (readsAs target h.1) (Nat.le_refl 14)
      rw [pieces, tokensOf_append, tokensOf_append]
      exact htarget.index hk (all_readAs indices h.2)
  | .call target arguments, h => by
      simp only [isLegal, Bool.and_eq_true] at h
      obtain ⟨k, hk, htarget⟩ := readsAs_operand (readsAs target h.1) (Nat.le_refl 14)
      rw [pieces, tokensOf_append, tokensOf_append]
      exact htarget.call hk (all_readAs arguments h.2)
  | .create type arguments, h => by
      simp only [isLegal, Bool.and_eq_true] at h
      rw [pieces, tokensOf_append]
      exact readsAs_create h.1 (all_readAs arguments h.2)
  | .prefixed op operand, h => by
      simp only [isLegal, Bool.and_eq_true, contains_iff_mem] at h
      have hloose : (decide (operand.strength < Precedence.unary) || operand.isUnary) = true →
        operand.strength < 14 := by
        rw [Bool.or_eq_true, decide_eq_true_eq]
        rintro (hlt | hunary)
        · exact Nat.lt_trans hlt (by decide)
        · rw [strength_of_isUnary hunary]
          decide
      have htight : (decide (operand.strength < Precedence.unary) || operand.isUnary) = false →
        13 ≤ operand.strength := by
        rw [Bool.or_eq_false_iff, decide_eq_false_iff_not]
        exact fun hboth => Nat.le_of_not_lt hboth.1
      obtain ⟨k, hk, hoperand⟩ := (readsAs operand h.2).operand_of _ hloose htight (by decide)
      exact hoperand.prefixed hk h.1
  | .postfixed op operand, h => by
      simp only [isLegal, Bool.and_eq_true, contains_iff_mem, beq_iff_eq] at h
      have htight : ¬operand.strength < Precedence.unary := by rw [h.1.2]; decide
      rw [pieces, tokensOf_append, decide_eq_false htight]
      exact (readsAs operand h.2).postfixed (Nat.le_of_eq h.1.2.symm) h.1.1
  | .cast type operand, h => by
      simp only [isLegal, Bool.and_eq_true] at h
      obtain ⟨k, hk, hoperand⟩ :=
        readsAs_operand_le (readsAs operand h.2) (show Precedence.unary < 14 by decide)
      exact hoperand.cast hk h.1
  | .tryCast operand type, h => by
      simp only [isLegal, Bool.and_eq_true] at h
      obtain ⟨k, hk, hoperand⟩ :=
        readsAs_operand (readsAs operand h.1) (show Precedence.relational ≤ 14 by decide)
      rw [pieces, append_assoc, tokensOf_append]
      exact hoperand.tryCast hk h.2
  | .typeOf type, h => readsAs_typeOf h
  | .conditional condition yes no, h => by
      simp only [isLegal, Bool.and_eq_true] at h
      obtain ⟨a, ha, hcondition⟩ :=
        readsAs_operand_le (readsAs condition h.1.1) (show Precedence.conditional < 14 by decide)
      obtain ⟨b, _, hyes⟩ :=
        readsAs_operand (readsAs yes h.1.2) (show Precedence.conditional ≤ 14 by decide)
      obtain ⟨c, _, hno⟩ :=
        readsAs_operand (readsAs no h.2) (show Precedence.conditional ≤ 14 by decide)
      simp only [pieces, tokensOf_append, tokensOf_spaced, append_assoc, singleton_append]
      exact readsAs_conditional hcondition hyes hno ha
  | .binary op left right, h => by
      simp only [isLegal, Bool.and_eq_true, contains_iff_mem] at h
      have hop : operatorPrecedence op < 14 := Nat.lt_trans (operatorPrecedence_lt op) (by decide)
      obtain ⟨a, ha, hleft⟩ := readsAs_operand (readsAs left h.1.2) (Nat.le_of_lt hop)
      obtain ⟨b, hb, hright⟩ := readsAs_operand_le (readsAs right h.2) hop
      rw [pieces, append_assoc, tokensOf_append]
      exact ReadsAs.binary h.1.1 hleft hright ha hb
  | .assign op left right, h => by
      simp only [isLegal, Bool.and_eq_true, contains_iff_mem, beq_iff_eq] at h
      obtain ⟨b, _, hright⟩ :=
        readsAs_operand (readsAs right h.2) (show Precedence.assignment ≤ 14 by decide)
      rw [pieces, append_assoc, tokensOf_append]
      exact readsAs_assign h.1.1.1 (readsAs left h.1.2) hright (by rw [h.1.1.2]; decide)

theorem all_readAs : (es : List Expression) → areLegal es = true →
    ∀ e ∈ es, ReadsAs (tokensOf e.pieces) e.strength e
  | [], _, _, hmem => by cases hmem
  | e :: rest, h, f, hmem => by
      rw [areLegal, Bool.and_eq_true] at h
      rcases mem_cons.mp hmem with heq | hmem
      · exact heq ▸ readsAs e h.1
      · exact all_readAs rest h.2 f hmem

end

theorem read_tokens (h : e.isLegal = true) : read (tokensOf e.pieces) = some e := by
  have hread := (readsAs e h).whole (6 * (tokensOf e.pieces).length) [] (Nat.le_refl _) ended_nil
  rw [append_nil] at hread
  simp only [Grammar.read, hread]

end Expression

end UnitySharp
