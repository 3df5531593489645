import UnitySharp.Proofs.Code.Grammar

/-!
# How expressions are worded

The pieces that an expression is written in, with parentheses wherever an operand binds too loosely
for its place.  No operator touches another one: an operand that begins with an operator is put in
parentheses, and an operator at the rear comes after the end of a primary.
-/

namespace UnitySharp

open Grammar List

variable {token op : String} {front rear : Bool} {c d : Char}

namespace Expression

def strength : Expression → Nat
  | .binary op _ _ => operatorPrecedence op
  | .assign _ _ _ => Precedence.assignment
  | .conditional _ _ _ => Precedence.conditional
  | .prefixed _ _ => Precedence.unary
  | .postfixed _ _ => Precedence.unary
  | .cast _ _ => Precedence.unary
  | .tryCast _ _ => Precedence.relational
  | _ => Precedence.primary

def isUnary : Expression → Bool
  | .prefixed _ _ => true
  | .postfixed _ _ => true
  | _ => false

end Expression

namespace Grammar

def enclosed (isLoose : Bool) (pieces : List Piece) : List Piece :=
  if isLoose then .token "(" :: pieces ++ [.token ")"] else pieces

def spaced (token : String) : List Piece :=
  [.blank, .token token, .blank]

def binaryOperators : List String :=
  operatorLevels.flatten.filter (· != "as")

end Grammar

namespace Expression

mutual

def pieces : Expression → List Piece
  | .name word => [.token word]
  | .selfRef => [.token "this"]
  | .superRef => [.token "base"]
  | .literal text => [.token text]
  | .member target field =>
    enclosed (target.strength < Precedence.primary) target.pieces ++ [.token ".", .token field]
  | .index target indices =>
    enclosed (target.strength < Precedence.primary) target.pieces ++ .token "[" ::
      listPieces indices ++ [.token "]"]
  | .call target arguments =>
    enclosed (target.strength < Precedence.primary) target.pieces ++ .token "(" ::
      listPieces arguments ++ [.token ")"]
  | .create type arguments =>
    .token "new" :: .blank :: .token type :: .token "(" :: listPieces arguments ++ [.token ")"]
  | .prefixed op operand =>
    .token op :: enclosed (operand.strength < Precedence.unary || operand.isUnary) operand.pieces
  | .postfixed op operand => enclosed (operand.strength < Precedence.unary) operand.pieces ++
    [.token op]
  | .cast type operand =>
    .token "(" :: .token type :: .token ")" :: .blank ::
      enclosed (operand.strength ≤ Precedence.unary) operand.pieces
  | .tryCast operand type =>
    enclosed (operand.strength < Precedence.relational) operand.pieces ++ spaced "as" ++
      [.token type]
  | .typeOf type => [.token "typeof", .token "(", .token type, .token ")"]
  | .conditional condition yes no =>
    enclosed (condition.strength ≤ Precedence.conditional) condition.pieces ++ spaced "?" ++
      enclosed (yes.strength < Precedence.conditional) yes.pieces ++ spaced ":" ++
        enclosed (no.strength < Precedence.conditional) no.pieces
  | .binary op left right =>
    enclosed (left.strength < operatorPrecedence op) left.pieces ++ spaced op ++
      enclosed (right.strength ≤ operatorPrecedence op) right.pieces
  | .assign op left right =>
    left.pieces ++ spaced op ++ enclosed (right.strength < Precedence.assignment) right.pieces

def listPieces : List Expression → List Piece
  | [] => []
  | [e] => e.pieces
  | e :: rest => e.pieces ++ .token "," :: .blank :: listPieces rest

end

mutual

/-- Whether an expression consists of legal names, literals, types and operators, with a primary
wherever something is assigned to or counted up after its use. -/
def isLegal : Expression → Bool
  | .name word => isName word
  | .selfRef => true
  | .superRef => true
  | .literal text => isLiteral text
  | .member target field => target.isLegal && isIdentifier field
  | .index target indices => target.isLegal && areLegal indices
  | .call target arguments => target.isLegal && areLegal arguments
  | .create type arguments => isName type && areLegal arguments
  | .prefixed op operand => frontOperators.contains op && operand.isLegal
  | .postfixed op operand => rearOperators.contains op && operand.strength == Precedence.primary &&
    operand.isLegal
  | .cast type operand => isType type && operand.isLegal
  | .tryCast operand type => operand.isLegal && isType type
  | .typeOf type => isType type
  | .conditional condition yes no => condition.isLegal && yes.isLegal && no.isLegal
  | .binary op left right => binaryOperators.contains op && left.isLegal && right.isLegal
  | .assign op left right =>
    assignmentOperators.contains op && left.strength == Precedence.primary && left.isLegal &&
      right.isLegal

def areLegal : List Expression → Bool
  | [] => true
  | e :: rest => e.isLegal && areLegal rest

end

end Expression

namespace Grammar

/-! ## Tokens that touch -/

variable {first second word : String} {pieces others : List Piece} {front' rear' : Bool}

def leading? : List Piece → Option String
  | .token token :: _ => some token
  | _ => none

def closing? (pieces : List Piece) : Option String :=
  match pieces.getLast? with
  | some (.token token) => some token
  | _ => none

@[simp] theorem closing?_append_cons (pieces : List Piece) (piece : Piece) (rest : List Piece) :
    closing? (pieces ++ piece :: rest) = closing? (piece :: rest) := by
  simp [closing?, getLast?_append, getLast?_cons]

@[simp] theorem closing?_cons_cons (piece next : Piece) (rest : List Piece) :
    closing? (piece :: next :: rest) = closing? (next :: rest) := by
  simp [closing?, getLast?_cons_cons]

theorem closing?_append_of_some (h : closing? others = some token) (pieces : List Piece) :
    closing? (pieces ++ others) = some token := by
  cases others with
  | nil => cases h
  | cons piece rest => rw [closing?_append_cons, h]

theorem leading?_append_of_some (h : leading? pieces = some token) (others : List Piece) :
    leading? (pieces ++ others) = some token := by
  cases pieces with
  | nil => cases h
  | cons piece rest =>
    cases piece with
    | token word => exact h
    | blank => cases h

theorem areApart_append (hpieces : areApart pieces = true) (hothers : areApart others = true)
    (hends : ∀ first second, closing? pieces = some first → leading? others = some second →
      runTogether first second = false) :
    areApart (pieces ++ others) = true := by
  fun_induction areApart pieces with
  | case1 => exact hothers
  | case2 rest ih =>
    rw [cons_append, areApart]
    cases rest with
    | nil => exact hothers
    | cons piece rest => exact ih hpieces (by simpa using hends)
  | case3 token =>
    cases others with
    | nil => rfl
    | cons piece rest =>
      cases piece with
      | blank => simpa [areApart] using hothers
      | token second => simpa [areApart, hends token second rfl rfl] using hothers
  | case4 token rest ih =>
    rw [cons_append, cons_append, areApart]
    cases rest with
    | nil => exact hothers
    | cons piece rest => exact ih hpieces (by simpa using hends)
  | case5 first second rest ih =>
    rw [Bool.and_eq_true] at hpieces
    rw [cons_append, cons_append, areApart, hpieces.1, Bool.true_and]
    exact ih hpieces.2 (by simpa using hends)

/-- Pieces that are apart from each other, with a token at either end.  The flags tell at which end
there is no operator. -/
structure Worded (front rear : Bool) (pieces : List Piece) : Prop where
  apart : areApart pieces = true
  front : ∃ token c, leading? pieces = some token ∧ token.toList.head? = some c ∧
    (front = true → isSymbol c = false)
  rear : ∃ token c, closing? pieces = some token ∧ token.toList.getLast? = some c ∧
    (rear = true → isSymbol c = false)

namespace Worded

theorem mono (h : Worded front rear pieces) (hfront : front' = true → front = true)
    (hrear : rear' = true → rear = true) :
    Worded front' rear' pieces := by
  obtain ⟨token, c, hlead, hhead, hc⟩ := h.front
  obtain ⟨last, d, hclose, hlast, hd⟩ := h.rear
  exact ⟨h.apart, ⟨token, c, hlead, hhead, hc ∘ hfront⟩, ⟨last, d, hclose, hlast, hd ∘ hrear⟩⟩

theorem of_token (hfirst : token.toList.head? = some c) (hlast : token.toList.getLast? = some d) :
    Worded (!isSymbol c) (!isSymbol d) [.token token] where
  apart := rfl
  front := ⟨token, c, rfl, hfirst, by simp⟩
  rear := ⟨token, d, rfl, hlast, by simp⟩

theorem append (hfirst : Worded front rear pieces) (hsecond : Worded front' rear' others)
    (hends : ∀ first second, closing? pieces = some first → leading? others = some second →
      runTogether first second = false) :
    Worded front rear' (pieces ++ others) where
  apart := areApart_append hfirst.apart hsecond.apart hends
  front := by
    obtain ⟨token, c, hlead, hc⟩ := hfirst.front
    exact ⟨token, c, leading?_append_of_some hlead others, hc⟩
  rear := by
    obtain ⟨token, c, hclose, hc⟩ := hsecond.rear
    exact ⟨token, c, closing?_append_of_some hclose pieces, hc⟩

theorem append_blank (hfirst : Worded front rear pieces) (hsecond : Worded front' rear' others) :
    Worded front rear' (pieces ++ .blank :: others) where
  apart := by
    apply areApart_append hfirst.apart
    · rw [areApart]
      exact hsecond.apart
    · intro _ _ _ hnone
      cases hnone
  front := by
    obtain ⟨token, c, hlead, hc⟩ := hfirst.front
    exact ⟨token, c, leading?_append_of_some hlead _, hc⟩
  rear := by
    obtain ⟨token, c, hclose, hc⟩ := hsecond.rear
    refine ⟨token, c, ?_, hc⟩
    rw [append_cons]
    exact closing?_append_of_some hclose _

end Worded

/-! ## Brackets -/

def brackets : List String :=
  ["(", ")", "[", "]", ","]

theorem ends_of_bracket (h : token ∈ brackets) : ∃ c, token.toList.head? = some c ∧
    token.toList.getLast? = some c ∧ isWordPart c = false ∧ isSymbol c = false ∧ isDigit c = false ∧
    c ≠ '.' := by
  simp only [brackets, mem_cons, not_mem_nil, or_false] at h
  rcases h with rfl | rfl | rfl | rfl | rfl
  · exact ⟨'(', by decide⟩
  · exact ⟨')', by decide⟩
  · exact ⟨'[', by decide⟩
  · exact ⟨']', by decide⟩
  · exact ⟨',', by decide⟩

theorem runTogether_bracket_left (h : token ∈ brackets) (hfirst : second.toList.head? = some c) :
    runTogether token second = false := by
  obtain ⟨d, _, hlast, hword, hsymbol, _, hdot⟩ := ends_of_bracket h
  simp [runTogether, hfirst, hlast, hword, hsymbol, hdot]

theorem runTogether_bracket_right (h : token ∈ brackets) (hlast : first.toList.getLast? = some c) :
    runTogether first token = false := by
  obtain ⟨d, hhead, _, hword, hsymbol, hdigit, _⟩ := ends_of_bracket h
  simp [runTogether, hhead, hlast, hword, hsymbol, hdigit]

namespace Worded

theorem of_bracket (h : token ∈ brackets) : Worded true true [.token token] := by
  obtain ⟨c, hfirst, hlast, _, hsymbol, _⟩ := ends_of_bracket h
  simpa [hsymbol] using of_token hfirst hlast

theorem bracket_append (h : token ∈ brackets) (hpieces : Worded front rear pieces) :
    Worded true rear (.token token :: pieces) := by
  apply (of_bracket h).append hpieces
  rintro first second ⟨⟩ hsecond
  obtain ⟨lead, c, hlead, hc, _⟩ := hpieces.front
  rw [hlead] at hsecond
  cases hsecond
  exact runTogether_bracket_left h hc

theorem append_bracket (h : token ∈ brackets) (hpieces : Worded front rear pieces)
    (hothers : Worded front' rear' others) (hlead : leading? others = some token) :
    Worded front rear' (pieces ++ others) := by
  apply hpieces.append hothers
  intro first second hfirst hsecond
  rw [hlead] at hsecond
  cases hsecond
  obtain ⟨close, c, hclose, hc, _⟩ := hpieces.rear
  rw [hclose] at hfirst
  cases hfirst
  exact runTogether_bracket_right h hc

theorem enclosed (h : Worded front rear pieces) (isLoose : Bool) :
    Worded (front || isLoose) (rear || isLoose) (enclosed isLoose pieces) := by
  cases isLoose with
  | false => simpa [Grammar.enclosed] using h
  | true =>
    simp only [Bool.or_true, Grammar.enclosed, if_true, cons_append]
    exact bracket_append (by decide) (h.append_bracket (by decide) (of_bracket (by decide)) rfl)

theorem spaced (hop : op.toList ≠ []) (hpieces : Worded front rear pieces)
    (hothers : Worded front' rear' others) :
    Worded front rear' (pieces ++ spaced op ++ others) := by
  have htoken := of_token (head?_eq_some_head hop) (getLast?_eq_some_getLast hop)
  simpa [Grammar.spaced] using hpieces.append_blank (htoken.append_blank hothers)

end Worded

end Grammar

/-! ## Words and literals -/

namespace Grammar

variable {cs rest : List Char}

theorem isSymbol_of_isIdentifierPart (h : isIdentifierPart c = true) : isSymbol c = false := by
  rw [← Bool.not_eq_true]
  intro hsymbol
  simp only [isSymbol, contains_iff_mem, mem_cons, not_mem_nil, or_false] at hsymbol
  rcases hsymbol with
      rfl | rfl | rfl | rfl | rfl | rfl | rfl | rfl | rfl | rfl | rfl | rfl | rfl <;>
    exact absurd h (by decide)

theorem isWordPart_of_isSymbol (h : isSymbol c = true) : isWordPart c = false := by
  simp only [isSymbol, contains_iff_mem, mem_cons, not_mem_nil, or_false] at h
  rcases h with rfl | rfl | rfl | rfl | rfl | rfl | rfl | rfl | rfl | rfl | rfl | rfl | rfl <;>
    decide

theorem ends_of_operator (h : token ∈ frontOperators ∨ token ∈ rearOperators) :
    ∃ c d, token.toList.head? = some c ∧ token.toList.getLast? = some d ∧ isSymbol c = true ∧
    isSymbol d = true := by
  have hfront : ∀ op ∈ frontOperators ++ rearOperators,
      op.toList.head?.any isSymbol = true ∧ op.toList.getLast?.any isSymbol = true := by decide
  obtain ⟨hfirst, hlast⟩ := hfront token (mem_append.mpr h)
  cases hc : token.toList.head? with
  | none => simp [hc] at hfirst
  | some c =>
    cases hd : token.toList.getLast? with
    | none => simp [hd] at hlast
    | some d =>
      rw [hc] at hfirst
      rw [hd] at hlast
      exact ⟨c, d, rfl, rfl, hfirst, hlast⟩

theorem isIdentifierPart_of_start (h : isIdentifierStart c = true) : isIdentifierPart c = true := by
  simp [isIdentifierPart, h]

theorem isDigit_of_isIdentifierStart (h : isIdentifierStart c = true) : isDigit c = false := by
  rw [← Bool.not_eq_true]
  intro hdigit
  simp only [isIdentifierStart, isDigit, Bool.or_eq_true, Bool.and_eq_true, decide_eq_true_eq,
    beq_iff_eq] at h hdigit
  rcases h with (⟨hlow, _⟩ | ⟨hlow, _⟩) | rfl
  · exact absurd (Char.le_trans hlow hdigit.2) (by decide)
  · exact absurd (Char.le_trans hlow hdigit.2) (by decide)
  · exact absurd hdigit.2 (by decide)

theorem ends_of_isBareIdentifier (h : isBareIdentifier cs = true) : ∃ c d, cs.head? = some c ∧
    cs.getLast? = some d ∧ isIdentifierStart c = true ∧ isIdentifierPart d = true := by
  cases cs with
  | nil => cases h
  | cons c rest =>
    simp only [isBareIdentifier, Bool.and_eq_true, all_eq_true] at h
    refine ⟨c, (c :: rest).getLast (by simp), rfl, getLast?_eq_some_getLast _, h.1, ?_⟩
    rcases mem_cons.mp (getLast_mem (l := c :: rest) (by simp)) with heq | hmem
    · rw [heq]
      exact isIdentifierPart_of_start h.1
    · exact h.2 _ hmem

theorem ends_of_isIdentifier (h : isIdentifier token = true) : ∃ c d, token.toList.head? = some c ∧
    token.toList.getLast? = some d ∧ (isIdentifierStart c = true ∨ c = '@') ∧
      isIdentifierPart d = true := by
  unfold isIdentifier at h
  split at h
  · rename_i rest heq
    obtain ⟨c, d, _, hlast, _, hd⟩ := ends_of_isBareIdentifier h
    refine ⟨'@', d, by simp [heq], ?_, Or.inr rfl, hd⟩
    rw [heq, getLast?_cons, hlast]
    rfl
  · obtain ⟨c, d, hfirst, hlast, hc, hd⟩ := ends_of_isBareIdentifier h
    exact ⟨c, d, hfirst, hlast, Or.inl hc, hd⟩

theorem isSymbol_at : isSymbol '@' = false := by
  decide

theorem worded_of_isIdentifier (h : isIdentifier token = true) :
    Worded true true [.token token] := by
  obtain ⟨c, d, hfirst, hlast, hc, hd⟩ := ends_of_isIdentifier h
  have hquiet : isSymbol c = false := by
    rcases hc with hstart | rfl
    · exact isSymbol_of_isIdentifierPart (isIdentifierPart_of_start hstart)
    · exact isSymbol_at
  simpa [hquiet, isSymbol_of_isIdentifierPart hd] using Worded.of_token hfirst hlast

theorem isIdentifier_of_isName (h : isName token = true) : isIdentifier token = true := by
  simp only [isName, Bool.and_eq_true] at h
  exact h.1

theorem exists_of_afterDigits? (h : afterDigits? cs = some rest) :
    ∃ digits d, cs = digits ++ d :: rest ∧ isDigit d = true := by
  cases cs with
  | nil => cases h
  | cons c tail =>
    simp only [afterDigits?] at h
    split at h
    · rename_i hc
      cases h
      have hsplit : c :: tail = c :: tail.takeWhile isDigit ++ tail.dropWhile isDigit := by
        simp [takeWhile_append_dropWhile]
      have hne : c :: tail.takeWhile isDigit ≠ [] := by simp
      refine ⟨(c :: tail.takeWhile isDigit).dropLast, (c :: tail.takeWhile isDigit).getLast hne, ?_,
        ?_⟩
      · rw [append_cons, dropLast_concat_getLast hne]
        exact hsplit
      · rcases mem_cons.mp (getLast_mem hne) with heq | hmem
        · rw [heq]
          exact hc
        · exact all_eq_true.mp all_takeWhile _ hmem
    · cases h

theorem afterFraction_spec (cs : List Char) : afterFraction cs = cs ∨
    ∃ taken d, cs = taken ++ d :: afterFraction cs ∧ isDigit d = true := by
  unfold afterFraction
  split
  · rename_i rest
    cases hrest : afterDigits? rest with
    | none => exact Or.inl rfl
    | some left =>
      obtain ⟨digits, d, heq, hd⟩ := exists_of_afterDigits? hrest
      exact Or.inr ⟨'.' :: digits, d, by simp [heq], hd⟩
  · exact Or.inl rfl

theorem afterSign_spec (cs : List Char) : ∃ sign, cs = sign ++ afterSign cs := by
  unfold afterSign
  split
  · exact ⟨['+'], rfl⟩
  · exact ⟨['-'], rfl⟩
  · exact ⟨[], rfl⟩

theorem afterExponent_spec (cs : List Char) : afterExponent cs = cs ∨
    ∃ taken d, cs = taken ++ d :: afterExponent cs ∧ isDigit d = true := by
  have hletter : ∀ (letter : Char) (rest : List Char),
      (afterDigits? (afterSign rest)).getD (letter :: rest) = letter :: rest ∨
        ∃ taken d, letter :: rest = taken ++ d :: (afterDigits? (afterSign rest)).getD
          (letter :: rest) ∧ isDigit d = true := by
    intro letter rest
    cases hrest : afterDigits? (afterSign rest) with
    | none => exact Or.inl rfl
    | some left =>
      obtain ⟨digits, d, heq, hd⟩ := exists_of_afterDigits? hrest
      obtain ⟨sign, hsign⟩ := afterSign_spec rest
      refine Or.inr ⟨letter :: sign ++ digits, d, ?_, hd⟩
      rw [heq] at hsign
      simp [hsign]
  unfold afterExponent
  split
  · exact hletter 'e' _
  · exact hletter 'E' _
  · exact Or.inl rfl

theorem isIdentifierPart_of_isDigit (h : isDigit c = true) : isIdentifierPart c = true := by
  rw [isIdentifierPart, show ('0' ≤ c && c ≤ '9') = true from h, Bool.or_true]

theorem isIdentifierPart_of_numberEnding {ending : String} (h : ending ∈ numberEndings)
    (hd : ending.toList.getLast? = some d) : isIdentifierPart d = true := by
  have hall : ∀ ending ∈ numberEndings, ending.toList.getLast?.all isIdentifierPart = true := by
    decide
  simpa [hd] using hall ending h

theorem ends_of_isNumber (h : isNumber cs = true) : ∃ c d, cs.head? = some c ∧
    cs.getLast? = some d ∧ isDigit c = true ∧ isIdentifierPart d = true := by
  cases cs with
  | nil => cases h
  | cons c tail =>
    cases hrest : afterDigits? (c :: tail) with
    | none => simp [isNumber, hrest] at h
    | some rest =>
      have hc : isDigit c = true := by
        simp only [afterDigits?] at hrest
        split at hrest
        · assumption
        · cases hrest
      -- Whatever is left at the end comes after a digit.
      have hsplit : ∃ taken d, c :: tail = taken ++ d :: afterExponent (afterFraction rest) ∧
        isDigit d = true := by
        obtain ⟨digits, d, hcs, hd⟩ := exists_of_afterDigits? hrest
        rcases afterExponent_spec (afterFraction rest) with hexponent | ⟨taken, d', hexponent, hd'⟩
        · rw [hexponent]
          rcases afterFraction_spec rest with hfraction | ⟨taken, d', hfraction, hd'⟩
          · exact ⟨digits, d, by rw [hfraction, hcs], hd⟩
          · exact ⟨digits ++ d :: taken, d', by rw [hcs, append_assoc, cons_append, ← hfraction],
              hd'⟩
        · rcases afterFraction_spec rest with hfraction | ⟨fraction, d'', hfraction, _⟩
          · refine ⟨digits ++ d :: taken, d', ?_, hd'⟩
            rw [hcs, append_assoc, cons_append, ← hexponent, hfraction]
          · refine ⟨digits ++ d :: (fraction ++ d'' :: taken), d', ?_, hd'⟩
            rw [hcs, append_assoc, cons_append, append_assoc, cons_append, ← hexponent, ← hfraction]
      obtain ⟨taken, d, hcs, hd⟩ := hsplit
      have hending : String.ofList (afterExponent (afterFraction rest)) ∈ numberEndings := by
        simpa [isNumber, hrest] using h
      have hend : ∀ d, (afterExponent (afterFraction rest)).getLast? = some d →
        isIdentifierPart d = true :=
        fun d hd => isIdentifierPart_of_numberEnding hending (by rwa [String.toList_ofList])
      generalize afterExponent (afterFraction rest) = left at hcs hend
      cases left with
      | nil => exact ⟨c, d, rfl, by rw [hcs]; simp, hc, isIdentifierPart_of_isDigit hd⟩
      | cons x left =>
        refine ⟨c, (x :: left).getLast (by simp), rfl, ?_, hc, hend _ (getLast?_eq_some_getLast _)⟩
        rw [hcs, getLast?_append, getLast?_cons_cons, getLast?_eq_some_getLast]
        rfl

theorem getLast?_of_isQuotedUpTo {mark : Char} (h : isQuotedUpTo mark cs = true) :
    cs.getLast? = some mark := by
  fun_induction isQuotedUpTo mark cs with
  | case1 => cases h
  | case2 c => simpa using h
  | case3 c next rest hescape ih =>
    have hlast := ih h
    cases rest with
    | nil => cases hlast
    | cons x rest => simpa [getLast?_cons_cons] using hlast
  | case4 c next rest hplain ih =>
    simp only [Bool.and_eq_true] at h
    simpa [getLast?_cons_cons] using ih h.2

theorem worded_of_isLiteral (h : isLiteral token = true) : Worded true true [.token token] := by
  simp only [isLiteral, Bool.or_eq_true, contains_iff_mem] at h
  rcases h with (hword | hnumber) | hquoted
  · have hall : ∀ word ∈ ["null", "true", "false"], isIdentifier word = true := by decide
    exact worded_of_isIdentifier (hall token hword)
  · obtain ⟨c, d, hfirst, hlast, hc, hd⟩ := ends_of_isNumber hnumber
    simpa [isSymbol_of_isIdentifierPart (isIdentifierPart_of_isDigit hc),
      isSymbol_of_isIdentifierPart hd] using Worded.of_token hfirst hlast
  · cases hcs : token.toList with
    | nil => simp [hcs, isQuoted] at hquoted
    | cons mark rest =>
      simp only [hcs, isQuoted, Bool.and_eq_true, Bool.or_eq_true, beq_iff_eq] at hquoted
      have hsymbol : isSymbol mark = false := by
        rcases hquoted.1 with rfl | rfl <;> decide
      have hlast : token.toList.getLast? = some mark := by
        rw [hcs, getLast?_cons, getLast?_of_isQuotedUpTo hquoted.2]
        rfl
      have hfirst : token.toList.head? = some mark := by rw [hcs]; rfl
      have hworded := Worded.of_token hfirst hlast
      rwa [hsymbol] at hworded

theorem worded_of_isType (h : isType token = true) : Worded false false [.token token] := by
  simp only [isType, isWordLike, Bool.and_eq_true] at h
  cases hfirst : token.toList.head? with
  | none => simp [hfirst] at h
  | some c =>
    cases hlast : token.toList.getLast? with
    | none => simp [hlast] at h
    | some d => exact (Worded.of_token hfirst hlast).mono (by simp) (by simp)

end Grammar

/-! ## Expressions -/

namespace Expression

variable {e : Expression} {es : List Expression}

/-- Whether an expression begins with something else than an operator wherever it is an operand. -/
def beginsQuietly (e : Expression) : Bool :=
  Precedence.unary ≤ e.strength && !e.isUnary

theorem worded_between {opening closing : String} (hopening : opening ∈ brackets)
    (hclosing : closing ∈ brackets) (h : ∀ e ∈ es, ∃ front rear, Worded front rear e.pieces) :
    Worded true true (.token opening :: listPieces es ++ [.token closing]) := by
  have hlist : ∀ (es : List Expression), es ≠ [] →
      (∀ e ∈ es, ∃ front rear, Worded front rear e.pieces) → ∃ front rear,
      Worded front rear (listPieces es) := by
    intro es hne hall
    induction es with
    | nil => exact absurd rfl hne
    | cons e rest ih =>
      obtain ⟨front, rear, he⟩ := hall e mem_cons_self
      cases rest with
      | nil => exact ⟨front, rear, he⟩
      | cons next rest =>
        obtain ⟨front', rear', hrest⟩ := ih (by simp) fun f hf => hall f (mem_cons_of_mem _ hf)
        have hcomma : Worded true rear' (.token "," :: .blank :: listPieces (next :: rest)) :=
          (Worded.of_bracket (by decide)).append_blank hrest
        exact ⟨front, rear', he.append_bracket (by decide) hcomma rfl⟩
  cases es with
  | nil => exact Worded.bracket_append hopening (Worded.of_bracket hclosing)
  | cons e rest =>
    obtain ⟨front, rear, hpieces⟩ := hlist (e :: rest) (by simp) h
    exact Worded.bracket_append hopening
      (hpieces.append_bracket hclosing (Worded.of_bracket hclosing) rfl)

theorem operatorPrecedence_lt (op : String) : operatorPrecedence op < Precedence.unary := by
  unfold operatorPrecedence
  split
  · decide
  · unfold binaryPrecedence?
    split <;> decide

theorem binaryOperator_ne (h : op ∈ binaryOperators) : op.toList ≠ [] := by
  have hall : ∀ op ∈ binaryOperators, op.toList ≠ [] := by decide
  exact hall op h

theorem assignmentOperator_ne (h : op ∈ assignmentOperators) : op.toList ≠ [] := by
  have hall : ∀ op ∈ assignmentOperators, op.toList ≠ [] := by decide
  exact hall op h

theorem strength_of_isUnary (h : e.isUnary = true) : e.strength = Precedence.unary := by
  cases e <;> first | rfl | cases h

theorem worded_tight
    (h : Worded e.beginsQuietly (decide (Precedence.primary ≤ e.strength)) e.pieces) :
    Worded true true (enclosed (e.strength < Precedence.primary) e.pieces) := by
  by_cases hloose : e.strength < Precedence.primary
  · simpa [hloose] using h.enclosed true
  · have hprimary : Precedence.primary ≤ e.strength := Nat.le_of_not_lt hloose
    have hunary : e.isUnary = false := by
      rw [← Bool.not_eq_true]
      intro hunary
      exact hloose (by rw [strength_of_isUnary hunary]; decide)
    have hquiet : e.beginsQuietly = true := by
      simp only [beginsQuietly, hunary, Bool.not_false, Bool.and_true, decide_eq_true_eq]
      exact Nat.le_trans (by decide) hprimary
    simpa [hquiet, hprimary, hloose, enclosed] using h

theorem worded_member {pieces : List Piece} {field : String} (hpieces : Worded front rear pieces)
    (hfield : isIdentifier field = true) :
      Worded front true (pieces ++ [.token ".", .token field]) := by
  have hword := worded_of_isIdentifier hfield
  obtain ⟨c, _, hfirst, _, hc, _⟩ := ends_of_isIdentifier hfield
  have hdigit : isDigit c = false := by
    rcases hc with hstart | rfl
    · exact isDigit_of_isIdentifierStart hstart
    · decide
  have hdot : Worded true true [.token "."] := Worded.of_token (c := '.')
    (d := '.') (by decide) (by decide)
  have hname : Worded true true [.token ".", .token field] := by
    apply hdot.append hword
    rintro first second ⟨⟩ ⟨⟩
    simp [runTogether, hfirst, hdigit, show isWordPart '.' = false by decide,
      show isSymbol '.' = false by decide]
  apply hpieces.append hname
  rintro first second hclose ⟨⟩
  obtain ⟨close, d, hclose', hlast, _⟩ := hpieces.rear
  rw [hclose'] at hclose
  cases hclose
  simp [runTogether, hlast, show isWordPart '.' = false by decide,
    show isSymbol '.' = false by decide, show isDigit '.' = false by decide]

theorem worded_prefixed (hop : op ∈ frontOperators)
    (h : Worded e.beginsQuietly (decide (Precedence.primary ≤ e.strength)) e.pieces) :
    Worded false false (pieces (.prefixed op e)) := by
  obtain ⟨c, d, hfirst, hlast, _, hd⟩ := ends_of_operator (Or.inl hop)
  have hoperand :
    Worded true false (enclosed (e.strength < Precedence.unary || e.isUnary) e.pieces) := by
    apply (h.enclosed _).mono _ (by simp)
    intro _
    cases hunary : e.isUnary
    · simpa [beginsQuietly, hunary] using (Nat.lt_or_ge e.strength Precedence.unary).symm
    · simp
  refine ((Worded.of_token hfirst hlast).append hoperand ?_).mono (by simp) id
  rintro first second ⟨⟩ hsecond
  obtain ⟨lead, x, hlead, hx, hquiet⟩ := hoperand.front
  rw [hlead] at hsecond
  cases hsecond
  have hdot : d ≠ '.' := by
    rintro rfl
    cases hd
  simp [runTogether, hlast, hx, hquiet rfl, isWordPart_of_isSymbol hd, hdot]

theorem worded_postfixed (hop : op ∈ rearOperators) (hprimary : e.strength = Precedence.primary)
    (h : Worded e.beginsQuietly (decide (Precedence.primary ≤ e.strength)) e.pieces) :
    Worded false false (pieces (.postfixed op e)) := by
  obtain ⟨c, d, hfirst, hlast, hc, _⟩ := ends_of_operator (Or.inr hop)
  have htight : ¬e.strength < Precedence.unary := by rw [hprimary]; decide
  have hdigit : isDigit c = false := by
    rw [← Bool.not_eq_true]
    intro hdigit
    rw [isSymbol_of_isIdentifierPart (isIdentifierPart_of_isDigit hdigit)] at hc
    cases hc
  simp only [pieces, htight, decide_false, enclosed]
  refine (h.append (Worded.of_token hfirst hlast) ?_).mono (by simp) (by simp)
  rintro first second hclose ⟨⟩
  obtain ⟨close, x, hclose', hx, hquiet⟩ := h.rear
  rw [hclose'] at hclose
  cases hclose
  simp [runTogether, hfirst, hx, hquiet (by simp [hprimary]), isWordPart_of_isSymbol hc, hdigit]

theorem worded_of_loose (hloose : e.strength < Precedence.unary) (h : Worded front rear e.pieces) :
    Worded e.beginsQuietly (decide (Precedence.primary ≤ e.strength)) e.pieces := by
  have hunary : ¬Precedence.unary ≤ e.strength := Nat.not_le_of_lt hloose
  have hprimary : ¬Precedence.primary ≤ e.strength :=
    Nat.not_le_of_lt (Nat.lt_trans hloose (by decide))
  exact h.mono (by simp [beginsQuietly, hunary]) (by simp [hprimary])

mutual

/-- No two tokens of an expression run together, and no primary ends in an operator. -/
theorem worded : (e : Expression) → e.isLegal = true →
    Worded e.beginsQuietly (decide (Precedence.primary ≤ e.strength)) e.pieces
  | .name word, h => worded_of_isIdentifier (isIdentifier_of_isName h)
  | .selfRef, _ => worded_of_isIdentifier (show isIdentifier "this" = true by decide)
  | .superRef, _ => worded_of_isIdentifier (show isIdentifier "base" = true by decide)
  | .literal text, h => worded_of_isLiteral h
  | .member target field, h => by
      simp only [isLegal, Bool.and_eq_true] at h
      exact worded_member (worded_tight (worded target h.1)) h.2
  | .index target indices, h => by
      simp only [isLegal, Bool.and_eq_true] at h
      have hindices :=
        worded_between (show "[" ∈ brackets by decide) (show "]" ∈ brackets by decide)
        (all_worded indices h.2)
      rw [pieces, append_assoc]
      exact (worded_tight (worded target h.1)).append_bracket (by decide) hindices rfl
  | .call target arguments, h => by
      simp only [isLegal, Bool.and_eq_true] at h
      have harguments :=
        worded_between (show "(" ∈ brackets by decide) (show ")" ∈ brackets by decide)
        (all_worded arguments h.2)
      rw [pieces, append_assoc]
      exact (worded_tight (worded target h.1)).append_bracket (by decide) harguments rfl
  | .create type arguments, h => by
      simp only [isLegal, Bool.and_eq_true] at h
      have harguments :=
        worded_between (show "(" ∈ brackets by decide) (show ")" ∈ brackets by decide)
        (all_worded arguments h.2)
      have htype := (worded_of_isIdentifier (isIdentifier_of_isName h.1)).append_bracket (by decide)
        harguments rfl
      exact (worded_of_isIdentifier (show isIdentifier "new" = true by decide)).append_blank htype
  | .prefixed op operand, h => by
      simp only [isLegal, Bool.and_eq_true, contains_iff_mem] at h
      exact worded_prefixed h.1 (worded operand h.2)
  | .postfixed op operand, h => by
      simp only [isLegal, Bool.and_eq_true, contains_iff_mem, beq_iff_eq] at h
      exact worded_postfixed h.1.1 h.1.2 (worded operand h.2)
  | .cast type operand, h => by
      simp only [isLegal, Bool.and_eq_true] at h
      have htype :=
        Worded.bracket_append (show "(" ∈ brackets by decide) ((worded_of_isType h.1).append_bracket
          (show ")" ∈ brackets by decide) (Worded.of_bracket (by decide)) rfl)
      exact (htype.append_blank ((worded operand h.2).enclosed _)).mono (fun _ => rfl)
        (by simp [strength, Precedence.unary, Precedence.primary])
  | .tryCast operand type, h => by
      simp only [isLegal, Bool.and_eq_true] at h
      exact worded_of_loose (show Precedence.relational < Precedence.unary by decide)
        (Worded.spaced (by decide) ((worded operand h.1).enclosed _) (worded_of_isType h.2))
  | .typeOf type, h => by
      have htype :=
        Worded.bracket_append (show "(" ∈ brackets by decide) ((worded_of_isType h).append_bracket
          (show ")" ∈ brackets by decide) (Worded.of_bracket (by decide)) rfl)
      exact (worded_of_isIdentifier (show isIdentifier "typeof" = true by decide)).append_bracket
        (by decide) htype rfl
  | .conditional condition yes no, h => by
      simp only [isLegal, Bool.and_eq_true] at h
      exact worded_of_loose (show Precedence.conditional < Precedence.unary by decide)
        (Worded.spaced (by decide) (Worded.spaced (by decide) ((worded condition h.1.1).enclosed _)
        ((worded yes h.1.2).enclosed _)) ((worded no h.2).enclosed _))
  | .binary op left right, h => by
      simp only [isLegal, Bool.and_eq_true, contains_iff_mem] at h
      exact worded_of_loose
        (show operatorPrecedence op < Precedence.unary from operatorPrecedence_lt op)
        (Worded.spaced (binaryOperator_ne h.1.1) ((worded left h.1.2).enclosed _)
          ((worded right h.2).enclosed _))
  | .assign op left right, h => by
      simp only [isLegal, Bool.and_eq_true, contains_iff_mem] at h
      exact worded_of_loose (show Precedence.assignment < Precedence.unary by decide)
        (Worded.spaced (assignmentOperator_ne h.1.1.1) (worded left h.1.2)
          ((worded right h.2).enclosed _))

theorem all_worded :
    (es : List Expression) → areLegal es = true → ∀ e ∈ es, ∃ front rear, Worded front rear e.pieces
  | [], _, _, hmem => by cases hmem
  | e :: rest, h, f, hmem => by
      rw [areLegal, Bool.and_eq_true] at h
      rcases mem_cons.mp hmem with heq | hmem
      · exact ⟨_, _, heq ▸ worded e h.1⟩
      · exact all_worded rest h.2 f hmem

end

end Expression

end UnitySharp
