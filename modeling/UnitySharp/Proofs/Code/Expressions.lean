import UnitySharp.Code.Printer
import UnitySharp.Proofs.Code.ReadBack
import UnitySharp.Proofs.Convert.Linked

/-!
# Printed expressions read back

A node is printed in the pieces of the expression that it amounts to (`marksWithin_pieces`): every
form of node puts the same operands in parentheses as the wording of expressions does.
-/

namespace UnitySharp

open Grammar

variable {op : String} {e : Expression}

def operatorText (op : String) : String :=
  (List.lookup op operatorWords).getD op

namespace Tree

def spellingWithin (t : Tree) : Nat → NodeId → Option String
  | 0, _ => none
  | _ + 1, id =>
    match t.shape id with
    | .typeRef type => some (typeCode t.renamed type)
    | _ => none

def isRenamed (t : Tree) (name : String) (symbol : Option Symbol) : Bool :=
  (symbol.any fun symbol => symbol.kind == .type || symbol.kind == .constructor) &&
    renamedTo t.renamed name != name

def readOnly {α : Type} (read : NodeId → Option α) : Occupants NodeId → Option α
  | .one child => read child
  | _ => none

def expressionWithin (t : Tree) : Nat → NodeId → Option Expression
  | 0, _ => none
  | depth + 1, id =>
    let node := t.node id
    let only (role : Role) : Option Expression :=
  readOnly (t.expressionWithin depth) (node.kid role)
    let listed (role : Role) : Option (List Expression) :=
  (node.kidList role).mapM (t.expressionWithin depth)
    let spelling : Option String := readOnly (t.spellingWithin depth) (node.kid .typeRef)
    match node.shape with
    | .reference (.text name) symbol _ =>
      if t.isRenamed name symbol then none else some (.name name)
    | .selfRef _ => some .selfRef
    | .superRef _ => some .superRef
    | .literal value type => (literalText? value type).map .literal
    | .memberAccess (.text name) _ _ => (only .target).map fun target => .member target name
    | .indexer _ => do
      let target ← only .target
      let indices ← listed .indices
      some (.index target indices)
    | .invocation _ => do
      let target ← only .target
      let arguments ← listed .arguments
      if Printer.isConstruction t node then
        match target with
        | .name type => some (.create type arguments)
        | _ => none
      else some (.call target arguments)
    | .unary (.text op) postfixed _ =>
      (only .operand).map fun operand =>
        if postfixed.truthy then .postfixed (operatorText op) operand else .prefixed
          (operatorText op) operand
    | .cast _ => do
      let type ← spelling
      let operand ← only .operand
      some (.cast type operand)
    | .tryCast _ => do
      let operand ← only .operand
      let type ← spelling
      some (.tryCast operand type)
    | .typeOf _ => spelling.map .typeOf
    | .conditional _ => do
      let condition ← only .condition
      let yes ← only .yes
      let no ← only .no
      some (.conditional condition yes no)
    | .binary (.text op) _ => do
      let left ← only .left
      let right ← only .right
      some (if assignmentOperators.contains op then .assign op left right else .binary
        (operatorText op) left right)
    | _ => none

/-- The expression that a node and everything beneath it amount to. -/
def expression? (t : Tree) (id : NodeId) : Option Expression :=
  t.expressionWithin (t.size + 1) id

end Tree

/-! ## Texts and their pieces -/

namespace Grammar

variable {s : String} {c d : Char}

theorem piecesOfText_of_nonblank (hfirst : s.toList.head? = some c)
    (hlast : s.toList.getLast? = some d) (hc : c ≠ ' ') (hd : d ≠ ' ') :
    piecesOfText s = (tokensOfText s.toList).map .token := by
  have hfront : s.toList.dropWhile (fun x => x == ' ') = s.toList := by
    cases hcs : s.toList with
    | nil => rfl
    | cons first rest =>
      rw [hcs] at hfirst
      cases hfirst
      exact List.dropWhile_cons_of_neg (by simpa using hc)
  have hback : s.toList.reverse.dropWhile (fun x => x == ' ') = s.toList.reverse := by
    rw [List.getLast?_eq_head?_reverse] at hlast
    cases hcs : s.toList.reverse with
    | nil => rfl
    | cons last rest =>
      rw [hcs] at hlast
      cases hlast
      exact List.dropWhile_cons_of_neg (by simpa using hd)
  simp only [piecesOfText, hfront, hback, List.reverse_reverse, hfirst, hlast]
  simp [hc, hd]

theorem piecesOfText_of_ends (hfirst : s.toList.head? = some c) (hlast : s.toList.getLast? = some d)
    (hc : c ≠ ' ' ∧ c ≠ '.') (hd : d ≠ ' ' ∧ d ≠ '(') : piecesOfText s = [.token s] := by
  have htokens : tokensOfText s.toList = [s] := by
    unfold tokensOfText
    split
    · rename_i heq
      simp [heq] at hfirst
    · rename_i heq
      rw [heq] at hfirst
      cases hfirst
      exact absurd rfl hc.2
    · rw [if_neg (by rw [hlast]; simp [hd.2]), String.ofList_toList]
  rw [piecesOfText_of_nonblank hfirst hlast hc.1 hd.1, htokens]
  rfl

theorem ne_of_isIdentifierPart (h : isIdentifierPart c = true) : c ≠ ' ' ∧ c ≠ '.' ∧ c ≠ '(' := by
  refine ⟨?_, ?_, ?_⟩ <;> rintro rfl <;> cases h

theorem piecesOfText_of_isIdentifier (h : isIdentifier s = true) : piecesOfText s = [.token s] := by
  obtain ⟨c, d, hfirst, hlast, hc, hd⟩ := ends_of_isIdentifier h
  obtain ⟨hblank, _, hopen⟩ := ne_of_isIdentifierPart hd
  refine piecesOfText_of_ends hfirst hlast ?_ ⟨hblank, hopen⟩
  rcases hc with hstart | rfl
  · obtain ⟨hblank, hdot, _⟩ := ne_of_isIdentifierPart (isIdentifierPart_of_start hstart)
    exact ⟨hblank, hdot⟩
  · decide

theorem piecesOfText_of_isLiteral (h : isLiteral s = true) : piecesOfText s = [.token s] := by
  simp only [isLiteral, Bool.or_eq_true, List.contains_iff_mem] at h
  rcases h with (hword | hnumber) | hquoted
  · have hall : ∀ word ∈ ["null", "true", "false"], piecesOfText word = [.token word] := by decide
    exact hall s hword
  · obtain ⟨c, d, hfirst, hlast, hc, hd⟩ := ends_of_isNumber hnumber
    obtain ⟨hblank, hdot, _⟩ := ne_of_isIdentifierPart (isIdentifierPart_of_isDigit hc)
    obtain ⟨hblank', _, hopen⟩ := ne_of_isIdentifierPart hd
    exact piecesOfText_of_ends hfirst hlast ⟨hblank, hdot⟩ ⟨hblank', hopen⟩
  · cases hcs : s.toList with
    | nil => simp [hcs, isQuoted] at hquoted
    | cons mark rest =>
      simp only [hcs, isQuoted, Bool.and_eq_true, Bool.or_eq_true, beq_iff_eq] at hquoted
      have hfirst : s.toList.head? = some mark := by rw [hcs]; rfl
      have hlast : s.toList.getLast? = some mark := by
        rw [hcs, List.getLast?_cons, getLast?_of_isQuotedUpTo hquoted.2]
        rfl
      rcases hquoted.1 with rfl | rfl
      · exact piecesOfText_of_ends hfirst hlast (by decide) (by decide)
      · exact piecesOfText_of_ends hfirst hlast (by decide) (by decide)

theorem piecesOfText_of_isType (h : isType s = true) : piecesOfText s = [.token s] := by
  simp only [isType, isWordLike, Bool.and_eq_true] at h
  cases hfirst : s.toList.head? with
  | none => simp [hfirst] at h
  | some c =>
    cases hlast : s.toList.getLast? with
    | none => simp [hlast] at h
    | some d =>
      have hc : beginsWord c = true := by simpa [hfirst] using h.1.1
      have hd : (beginsWord d || isDigit d || d == '>' || d == ']') = true := by
        simpa only [hlast, Option.any_some] using h.1.2
      refine piecesOfText_of_ends hfirst hlast ⟨?_, ?_⟩ ⟨?_, ?_⟩
      · rintro rfl
        cases hc
      · rintro rfl
        cases hc
      · rintro rfl
        cases hd
      · rintro rfl
        cases hd

theorem piecesOfText_member {field : String} (h : isIdentifier field = true) :
    piecesOfText ("." ++ field) = [.token ".", .token field] := by
  obtain ⟨_, d, _, hlast, _, hd⟩ := ends_of_isIdentifier h
  have hcs : ("." ++ field).toList = '.' :: field.toList := by simp
  have hfirst : ("." ++ field).toList.head? = some '.' := by rw [hcs]; rfl
  have hlast' : ("." ++ field).toList.getLast? = some d := by
    rw [hcs, List.getLast?_cons, hlast]
    rfl
  rw [piecesOfText_of_nonblank hfirst hlast' (by decide) (ne_of_isIdentifierPart hd).1, hcs]
  simp [tokensOfText]

theorem piecesOfText_binary (h : op ∈ binaryOperators) :
    piecesOfText (" " ++ op ++ " ") = spaced op := by
  have hall : ∀ op ∈ binaryOperators, piecesOfText (" " ++ op ++ " ") = spaced op := by decide
  exact hall op h

theorem piecesOfText_assignment (h : op ∈ assignmentOperators) :
    piecesOfText (" " ++ op ++ " ") = spaced op := by
  have hall : ∀ op ∈ assignmentOperators, piecesOfText (" " ++ op ++ " ") = spaced op := by decide
  exact hall op h

theorem piecesOfText_unary (h : op ∈ frontOperators ∨ op ∈ rearOperators) :
    piecesOfText op = [.token op] := by
  have hall : ∀ op ∈ frontOperators ++ rearOperators, piecesOfText op = [.token op] := by decide
  exact hall op (List.mem_append.mpr h)

def piecesOf (marks : List Mark) : List Piece :=
  marks.flatMap piecesOfMark

@[simp] theorem piecesOf_append (marks others : List Mark) :
    piecesOf (marks ++ others) = piecesOf marks ++ piecesOf others :=
  List.flatMap_append

@[simp] theorem piecesOf_say (s : String) : piecesOf (Printer.say s) = piecesOfText s := by
  simp [piecesOf, Printer.say, piecesOfMark]

@[simp] theorem piecesOf_cons (mark : Mark) (marks : List Mark) :
    piecesOf (mark :: marks) = piecesOfMark mark ++ piecesOf marks := rfl

@[simp] theorem piecesOf_nil : piecesOf [] = [] := rfl

theorem piecesOf_comments (node : Node) : piecesOf (Printer.commentMarks node) = [] := by
  unfold Printer.commentMarks
  split
  · rfl
  · simp [piecesOf, List.flatMap_map, piecesOfMark]

end Grammar

/-! ## Printing -/

namespace Printer

variable {t : Tree} {emit : Emit} {id : NodeId} {occupants : Occupants NodeId} {ids : List NodeId}
  {es : List Expression} {depth : Nat} {iterator : Bool} {spelling : String}

def Gives (printed : Printed) (pieces : List Piece) : Prop :=
  ∃ marks, printed = .ok marks ∧ piecesOf marks = pieces

structure PrintsAs (t : Tree) (emit : Emit) (id : NodeId) (e : Expression) : Prop where
  gives : Gives (emit id) e.pieces
  strength : (t.shape id).precedence = .ok e.strength
  unary : (t.kind id == .unary) = e.isUnary

theorem operand_gives (h : PrintsAs t emit id e) (isLoose : Nat → Bool) :
    Gives (operand t emit (.one id) isLoose) (enclosed (isLoose e.strength) e.pieces) := by
  obtain ⟨marks, hmarks, hpieces⟩ := h.gives
  have hopen : piecesOfText "(" = [.token "("] := by decide
  have hclose : piecesOfText ")" = [.token ")"] := by decide
  refine ⟨_, by simp only [operand, Printer.strength, h.strength, child, hmarks]; rfl, ?_⟩
  cases isLoose e.strength <;> simp [enclosed, hpieces, hopen, hclose]

theorem commaSeparated_gives (h : List.Forall₂ (fun id e => Gives (emit id) e.pieces) ids es) :
    Gives (commaSeparated emit ids) (Expression.listPieces es) := by
  have hcomma : piecesOfText ", " = [.token ",", .blank] := by decide
  induction h with
  | nil => exact ⟨[], rfl, rfl⟩
  | @cons id e ids es hfirst hrest ih =>
    obtain ⟨marks, hmarks, hpieces⟩ := hfirst
    cases hrest with
    | nil => exact ⟨marks, hmarks, hpieces⟩
    | cons hnext hlater =>
      obtain ⟨others, hothers, hlist⟩ := ih
      refine ⟨marks ++ say ", " ++ others, ?_, ?_⟩
      · simp only [commaSeparated, hmarks, hothers]
        rfl
      · simp [Expression.listPieces, hpieces, hcomma, hlist]

theorem gives_marksWithin {pieces : List Piece}
    (h : Gives (nodeMarks t (fun inside child => marksWithin t depth inside child) iterator id)
      pieces) :
    Gives (marksWithin t (depth + 1) iterator id) pieces := by
  obtain ⟨marks, hmarks, hpieces⟩ := h
  refine ⟨commentMarks (t.node id) ++ marks, by simp only [marksWithin, hmarks]; rfl, ?_⟩
  rw [piecesOf_append, piecesOf_comments, hpieces, List.nil_append]

theorem readOnly_eq_some {α : Type} {read : NodeId → Option α} {result : α}
    (h : Tree.readOnly read occupants = some result) : ∃ child, occupants = .one child ∧
      read child = some result := by
  cases occupants with
  | one child => exact ⟨child, rfl, h⟩
  | _ => cases h

theorem operatorToken_text (op : String) :
    operatorToken (.text op) = .ok (.text (operatorText op)) := by
  simp only [operatorToken, Name.find?, Name.key?, operatorText, Except.map, Option.bind_some]
  cases List.lookup op operatorWords <;> rfl

theorem operatorPrecedence_operatorText (op : String) :
    operatorPrecedence (operatorText op) = operatorPrecedence op := by
  simp only [operatorText, operatorWords, List.lookup_cons]
  cases hand : op == "and"
  · cases hor : op == "or"
    · cases hnot : op == "not"
      · rfl
      · rw [eq_of_beq hnot]
        rfl
    · rw [eq_of_beq hor]
      rfl
  · rw [eq_of_beq hand]
    rfl

theorem typeRef_gives (h : t.spellingWithin depth id = some spelling)
    (htype : isType spelling = true) :
    Gives (marksWithin t depth iterator id) [.token spelling] := by
  cases depth with
  | zero => cases h
  | succ depth =>
    simp only [Tree.spellingWithin] at h
    split at h
    · rename_i type hshape
      cases h
      apply gives_marksWithin
      refine ⟨say (typeCode t.renamed type), ?_, ?_⟩
      · simp only [nodeMarks, show (t.node id).shape = _ from hshape]
      · rw [piecesOf_say, piecesOfText_of_isType htype]
    · cases h

section Forms

variable {emitIn : Bool → Emit} {name : String} {symbol : Option Symbol} {type : Option Ty}
  {child other third : NodeId} {target left right : Expression} {postfixed : Json}

theorem reference_gives (hshape : t.shape id = .reference (.text name) symbol type)
    (hrenamed : t.isRenamed name symbol = false) (hname : isName name = true) :
    Gives (nodeMarks t emitIn iterator id) (Expression.pieces (.name name)) := by
  refine ⟨[.name (.text name)], ?_, ?_⟩
  · simp only [nodeMarks, show (t.node id).shape = _ from hshape, referenceMarks]
    split
    · rename_i htype
      have hsame : renamedTo t.renamed name = name := by
        simpa [Tree.isRenamed, htype] using hrenamed
      simp [Name.key?, bind, Except.bind, hsame]
    · rfl
  · simp [piecesOfMark, piecesOfText_of_isIdentifier (isIdentifier_of_isName hname),
      Expression.pieces]

theorem member_gives (hshape : t.shape id = .memberAccess (.text name) symbol type)
    (hkid : (t.node id).kid .target = .one child) (h : PrintsAs t (emitIn iterator) child target)
    (hname : isIdentifier name = true) :
    Gives (nodeMarks t emitIn iterator id) (Expression.pieces (.member target name)) := by
  obtain ⟨marks, hmarks, hpieces⟩ := operand_gives h (· < Precedence.primary)
  refine ⟨marks ++ say ("." ++ name), ?_, ?_⟩
  · simp only [nodeMarks, show (t.node id).shape = _ from hshape, hkid, hmarks, textOf, Name.asText]
    rfl
  · simp [hpieces, piecesOfText_member hname, Expression.pieces]

theorem index_gives (hshape : t.shape id = .indexer type)
    (hkid : (t.node id).kid .target = .one child) (h : PrintsAs t (emitIn iterator) child target)
    (hes : List.Forall₂ (fun id e => Gives (emitIn iterator id) e.pieces)
      ((t.node id).kidList .indices) es) :
    Gives (nodeMarks t emitIn iterator id) (Expression.pieces (.index target es)) := by
  obtain ⟨marks, hmarks, hpieces⟩ := operand_gives h (· < Precedence.primary)
  obtain ⟨others, hothers, hlist⟩ := commaSeparated_gives hes
  refine ⟨marks ++ say "[" ++ others ++ say "]", ?_, ?_⟩
  · simp only [nodeMarks, show (t.node id).shape = _ from hshape, hkid, hmarks, hothers]
    rfl
  · have hopen : piecesOfText "[" = [.token "["] := by decide
    have hclose : piecesOfText "]" = [.token "]"] := by decide
    simp [hpieces, hlist, hopen, hclose, Expression.pieces]

theorem invocation_gives (hshape : t.shape id = .invocation type)
    (hkid : (t.node id).kid .target = .one child) (h : PrintsAs t (emitIn iterator) child target)
    (hes : List.Forall₂ (fun id e => Gives (emitIn iterator id) e.pieces)
      ((t.node id).kidList .arguments) es) :
    Gives (nodeMarks t emitIn iterator id)
      ((if isConstruction t (t.node id) then [.token "new", .blank] else []) ++ Expression.pieces
        (.call target es)) := by
  obtain ⟨marks, hmarks, hpieces⟩ := operand_gives h (· < Precedence.primary)
  obtain ⟨others, hothers, hlist⟩ := commaSeparated_gives hes
  refine ⟨(if isConstruction t (t.node id) then say "new " else []) ++ marks ++ say "(" ++ others ++
    say ")", ?_, ?_⟩
  · simp only [nodeMarks, show (t.node id).shape = _ from hshape, hkid, hmarks, hothers]
    rfl
  · have hnew : piecesOfText "new " = [.token "new", .blank] := by decide
    have hopen : piecesOfText "(" = [.token "("] := by decide
    have hclose : piecesOfText ")" = [.token ")"] := by decide
    cases isConstruction t (t.node id) <;> simp [hpieces, hlist, hnew, hopen, hclose,
      Expression.pieces]

theorem prefixed_gives (hshape : t.shape id = .unary (.text op) postfixed type)
    (hpostfixed : postfixed.truthy = false) (hkid : (t.node id).kid .operand = .one child)
    (h : PrintsAs t (emitIn iterator) child e) (hop : operatorText op ∈ frontOperators) :
    Gives (nodeMarks t emitIn iterator id) (Expression.pieces (.prefixed (operatorText op) e)) := by
  obtain ⟨marks, hmarks, hpieces⟩ := operand_gives h
    fun strength => strength < Precedence.unary || isNestedUnary t (.one child)
  refine ⟨.name (.text (operatorText op)) :: marks, ?_, ?_⟩
  · simp only [nodeMarks, show (t.node id).shape = _ from hshape, unaryMarks, operatorToken_text,
      hkid, hpostfixed]
    simp only [bind, Except.bind, hmarks]
    rfl
  · have hnested : isNestedUnary t (.one child) = e.isUnary := h.unary
    simp [hpieces, hnested, piecesOfMark, piecesOfText_unary (Or.inl hop), Expression.pieces]

theorem postfixed_gives (hshape : t.shape id = .unary (.text op) postfixed type)
    (hpostfixed : postfixed.truthy = true) (hkid : (t.node id).kid .operand = .one child)
    (h : PrintsAs t (emitIn iterator) child e) (hop : operatorText op ∈ rearOperators) :
    Gives (nodeMarks t emitIn iterator id)
    (Expression.pieces (.postfixed (operatorText op) e)) := by
  obtain ⟨marks, hmarks, hpieces⟩ := operand_gives h (· < Precedence.unary)
  refine ⟨marks ++ [.name (.text (operatorText op))], ?_, ?_⟩
  · simp only [nodeMarks, show (t.node id).shape = _ from hshape, unaryMarks, operatorToken_text,
      hkid, hpostfixed]
    simp only [bind, Except.bind, hmarks]
    rfl
  · simp [hpieces, piecesOfMark, piecesOfText_unary (Or.inr hop), Expression.pieces]

theorem cast_gives (hshape : t.shape id = .cast type)
    (htypeKid : (t.node id).kid .typeRef = .one other)
    (hkid : (t.node id).kid .operand = .one child)
    (htype : Gives (emitIn iterator other) [.token spelling])
    (h : PrintsAs t (emitIn iterator) child e) :
    Gives (nodeMarks t emitIn iterator id) (Expression.pieces (.cast spelling e)) := by
  obtain ⟨marks, hmarks, hpieces⟩ := operand_gives h (· ≤ Precedence.unary)
  obtain ⟨typeMarks, htypeMarks, htypePieces⟩ := htype
  refine ⟨say "(" ++ typeMarks ++ say ") " ++ marks, ?_, ?_⟩
  · simp only [nodeMarks, show (t.node id).shape = _ from hshape, htypeKid, hkid, Printer.child,
      htypeMarks, hmarks]
    rfl
  · have hopen : piecesOfText "(" = [.token "("] := by decide
    have hclose : piecesOfText ") " = [.token ")", .blank] := by decide
    simp [hpieces, htypePieces, hopen, hclose, Expression.pieces]

theorem tryCast_gives (hshape : t.shape id = .tryCast type)
    (htypeKid : (t.node id).kid .typeRef = .one other)
    (hkid : (t.node id).kid .operand = .one child)
    (htype : Gives (emitIn iterator other) [.token spelling])
    (h : PrintsAs t (emitIn iterator) child e) :
    Gives (nodeMarks t emitIn iterator id) (Expression.pieces (.tryCast e spelling)) := by
  obtain ⟨marks, hmarks, hpieces⟩ := operand_gives h (· < Precedence.relational)
  obtain ⟨typeMarks, htypeMarks, htypePieces⟩ := htype
  refine ⟨marks ++ say " as " ++ typeMarks, ?_, ?_⟩
  · simp only [nodeMarks, show (t.node id).shape = _ from hshape, htypeKid, hkid, Printer.child,
      htypeMarks, hmarks]
    rfl
  · have has : piecesOfText " as " = spaced "as" := by decide
    simp [hpieces, htypePieces, has, Expression.pieces]

theorem typeOf_gives (hshape : t.shape id = .typeOf type)
    (htypeKid : (t.node id).kid .typeRef = .one other)
    (htype : Gives (emitIn iterator other) [.token spelling]) :
    Gives (nodeMarks t emitIn iterator id) (Expression.pieces (.typeOf spelling)) := by
  obtain ⟨typeMarks, htypeMarks, htypePieces⟩ := htype
  refine ⟨say "typeof(" ++ typeMarks ++ say ")", ?_, ?_⟩
  · simp only [nodeMarks, show (t.node id).shape = _ from hshape, htypeKid, Printer.child,
      htypeMarks]
    rfl
  · have hopen : piecesOfText "typeof(" = [.token "typeof", .token "("] := by decide
    have hclose : piecesOfText ")" = [.token ")"] := by decide
    simp [htypePieces, hopen, hclose, Expression.pieces]

theorem conditional_gives {condition yes no : Expression} (hshape : t.shape id = .conditional type)
    (hcondition : (t.node id).kid .condition = .one child)
    (hyes : (t.node id).kid .yes = .one other)
    (hno : (t.node id).kid .no = .one third) (h : PrintsAs t (emitIn iterator) child condition)
    (hyesPrints : PrintsAs t (emitIn iterator) other yes)
    (hnoPrints : PrintsAs t (emitIn iterator) third no) :
    Gives (nodeMarks t emitIn iterator id) (Expression.pieces (.conditional condition yes no)) := by
  obtain ⟨marks, hmarks, hpieces⟩ := operand_gives h (· ≤ Precedence.conditional)
  obtain ⟨yesMarks, hyesMarks, hyesPieces⟩ := operand_gives hyesPrints (· < Precedence.conditional)
  obtain ⟨noMarks, hnoMarks, hnoPieces⟩ := operand_gives hnoPrints (· < Precedence.conditional)
  refine ⟨marks ++ say " ? " ++ yesMarks ++ say " : " ++ noMarks, ?_, ?_⟩
  · simp only [nodeMarks, show (t.node id).shape = _ from hshape, hcondition, hyes, hno, hmarks,
      hyesMarks, hnoMarks]
    rfl
  · have hquestion : piecesOfText " ? " = spaced "?" := by decide
    have hcolon : piecesOfText " : " = spaced ":" := by decide
    simp [hpieces, hyesPieces, hnoPieces, hquestion, hcolon, Expression.pieces]

theorem precedence_binary (op : String) (type : Option Ty) :
    (Shape.binary (.text op) type).precedence = .ok (operatorPrecedence op) := rfl

theorem assign_gives (hshape : t.shape id = .binary (.text op) type)
    (hop : op ∈ assignmentOperators) (hleft : (t.node id).kid .left = .one child)
    (hright : (t.node id).kid .right = .one other) (h : PrintsAs t (emitIn iterator) child left)
    (hrightPrints : PrintsAs t (emitIn iterator) other right) :
    Gives (nodeMarks t emitIn iterator id) (Expression.pieces (.assign op left right)) := by
  obtain ⟨marks, hmarks, hpieces⟩ := h.gives
  obtain ⟨rightMarks, hrightMarks, hrightPieces⟩ :=
    operand_gives hrightPrints (· < Precedence.assignment)
  have hprecedence : operatorPrecedence op = Precedence.assignment := by
    simp [operatorPrecedence, hop]
  refine ⟨marks ++ say (" " ++ op ++ " ") ++ rightMarks, ?_, ?_⟩
  · simp only [nodeMarks, show (t.node id).shape = _ from hshape, binaryMarks, precedence_binary,
      hprecedence]
    simp only [bind, Except.bind, if_true, hleft, hright, Printer.child, hmarks, hrightMarks]
    rfl
  · simp [hpieces, hrightPieces, piecesOfText_assignment hop, Expression.pieces]

theorem binary_gives (hshape : t.shape id = .binary (.text op) type)
    (hop : operatorText op ∈ binaryOperators) (hleft : (t.node id).kid .left = .one child)
    (hright : (t.node id).kid .right = .one other) (h : PrintsAs t (emitIn iterator) child left)
    (hrightPrints : PrintsAs t (emitIn iterator) other right) :
    Gives (nodeMarks t emitIn iterator id)
    (Expression.pieces (.binary (operatorText op) left right)) := by
  have hsame := operatorPrecedence_operatorText op
  obtain ⟨level, _, hlevel, _⟩ := level_of_binaryOperator hop
  rw [hsame] at hlevel
  have hassignment : ¬operatorPrecedence op = Precedence.assignment := by
    rw [hlevel]
    simp [Precedence.assignment]
  obtain ⟨marks, hmarks, hpieces⟩ := operand_gives h (· < operatorPrecedence op)
  obtain ⟨rightMarks, hrightMarks, hrightPieces⟩ :=
    operand_gives hrightPrints (· ≤ operatorPrecedence op)
  refine ⟨marks ++ say (" " ++ operatorText op ++ " ") ++ rightMarks, ?_, ?_⟩
  · simp only [nodeMarks, show (t.node id).shape = _ from hshape, binaryMarks, precedence_binary]
    simp only [bind, Except.bind, hassignment, if_false, hleft, hright, operatorToken_text, hmarks,
      hrightMarks]
    rfl
  · simp [hpieces, hrightPieces, piecesOfText_binary hop, Expression.pieces, hsame]

end Forms

theorem forall₂_gives {depth : Nat} {iterator : Bool} {ids : List NodeId} {es : List Expression}
    (hread : ids.mapM (t.expressionWithin depth) = some es) (hlegal : Expression.areLegal es = true)
    (h : ∀ {id e}, t.expressionWithin depth id = some e → e.isLegal = true →
      PrintsAs t (marksWithin t depth iterator) id e) :
    List.Forall₂ (fun id e => Gives (marksWithin t depth iterator id) e.pieces) ids es := by
  have hall := forall₂_of_mapM_some hread
  clear hread
  induction hall with
  | nil => exact .nil
  | cons hfirst _ ih =>
    rw [Expression.areLegal, Bool.and_eq_true] at hlegal
    exact .cons (h hfirst hlegal.1).gives (ih hlegal.2)

theorem PrintsAs.of_node {shape : Shape} (hshape : t.shape id = shape)
    (hgives : Gives (nodeMarks t (fun inside child => marksWithin t depth inside child) iterator id)
      e.pieces)
    (hstrength : shape.precedence = .ok e.strength) (hunary : (shape.kind == .unary) = e.isUnary) :
    PrintsAs t (marksWithin t (depth + 1) iterator) id e where
  gives := gives_marksWithin hgives
  strength := hshape ▸ hstrength
  unary := by rw [Tree.kind, hshape, hunary]

theorem printsAs (depth : Nat) (iterator : Bool) (h : t.expressionWithin depth id = some e)
    (hlegal : e.isLegal = true) :
    PrintsAs t (marksWithin t depth iterator) id e := by
  induction depth generalizing id e with
  | zero => cases h
  | succ depth ih =>
    simp only [Tree.expressionWithin] at h
    split at h
    · rename_i name symbol type hshape
      split at h
      · cases h
      · rename_i hrenamed
        cases h
        exact .of_node hshape (reference_gives hshape (by simpa using hrenamed) hlegal) rfl rfl
    · rename_i type hshape
      cases h
      have hthis : piecesOfText "this" = [.token "this"] := by decide
      refine .of_node hshape ⟨say "this", ?_, by rw [piecesOf_say, hthis]; rfl⟩ rfl rfl
      simp only [nodeMarks, hshape]
    · rename_i type hshape
      cases h
      have hbase : piecesOfText "base" = [.token "base"] := by decide
      refine .of_node hshape ⟨say "base", ?_, by rw [piecesOf_say, hbase]; rfl⟩ rfl rfl
      simp only [nodeMarks, hshape]
    · rename_i value type hshape
      obtain ⟨text, htext, rfl⟩ := Option.map_eq_some_iff.mp h
      refine .of_node hshape ⟨say text,
        ?_, by rw [piecesOf_say, piecesOfText_of_isLiteral hlegal]; rfl⟩ rfl rfl
      simp only [nodeMarks, hshape, htext]
    · rename_i name symbol type hshape
      obtain ⟨target, htarget, rfl⟩ := Option.map_eq_some_iff.mp h
      obtain ⟨child, hkid, htarget⟩ := readOnly_eq_some htarget
      simp only [Expression.isLegal, Bool.and_eq_true] at hlegal
      exact .of_node hshape (member_gives hshape hkid (ih htarget hlegal.1) hlegal.2) rfl rfl
    · rename_i type hshape
      obtain ⟨target, htarget, h⟩ := Option.bind_eq_some_iff.mp h
      obtain ⟨es, hes, h⟩ := Option.bind_eq_some_iff.mp h
      cases h
      obtain ⟨child, hkid, htarget⟩ := readOnly_eq_some htarget
      simp only [Expression.isLegal, Bool.and_eq_true] at hlegal
      exact .of_node hshape
        (index_gives hshape hkid (ih htarget hlegal.1) (forall₂_gives hes hlegal.2 ih)) rfl rfl
    · rename_i type hshape
      obtain ⟨target, htarget, h⟩ := Option.bind_eq_some_iff.mp h
      obtain ⟨es, hes, h⟩ := Option.bind_eq_some_iff.mp h
      obtain ⟨child, hkid, htarget⟩ := readOnly_eq_some htarget
      split at h
      · rename_i hconstruction
        split at h
        · cases h
          simp only [Expression.isLegal, Bool.and_eq_true] at hlegal
          have hgives :=
            invocation_gives hshape hkid (ih htarget hlegal.1) (forall₂_gives hes hlegal.2 ih)
          rw [if_pos hconstruction] at hgives
          exact .of_node hshape hgives rfl rfl
        · cases h
      · rename_i hcall
        cases h
        simp only [Expression.isLegal, Bool.and_eq_true] at hlegal
        have hgives :=
          invocation_gives hshape hkid (ih htarget hlegal.1) (forall₂_gives hes hlegal.2 ih)
        rw [if_neg hcall] at hgives
        exact .of_node hshape hgives rfl rfl
    · rename_i op postfixed type hshape
      obtain ⟨operand, hoperand, rfl⟩ := Option.map_eq_some_iff.mp h
      obtain ⟨child, hkid, hoperand⟩ := readOnly_eq_some hoperand
      cases hpostfixed : postfixed.truthy with
      | true =>
        simp only [hpostfixed, if_true, Expression.isLegal, Bool.and_eq_true,
          List.contains_iff_mem] at hlegal ⊢
        exact .of_node hshape (postfixed_gives hshape hpostfixed hkid (ih hoperand hlegal.2)
          hlegal.1.1) rfl rfl
      | false =>
        simp only [hpostfixed, Bool.false_eq_true, if_false, Expression.isLegal, Bool.and_eq_true,
          List.contains_iff_mem] at hlegal ⊢
        exact .of_node hshape (prefixed_gives hshape hpostfixed hkid (ih hoperand hlegal.2)
          hlegal.1) rfl rfl
    · rename_i type hshape
      obtain ⟨spelling, hspelling, h⟩ := Option.bind_eq_some_iff.mp h
      obtain ⟨operand, hoperand, h⟩ := Option.bind_eq_some_iff.mp h
      cases h
      obtain ⟨other, htypeKid, hspelling⟩ := readOnly_eq_some hspelling
      obtain ⟨child, hkid, hoperand⟩ := readOnly_eq_some hoperand
      simp only [Expression.isLegal, Bool.and_eq_true] at hlegal
      exact .of_node hshape
        (cast_gives hshape htypeKid hkid (typeRef_gives hspelling hlegal.1) (ih hoperand hlegal.2))
          rfl rfl
    · rename_i type hshape
      obtain ⟨operand, hoperand, h⟩ := Option.bind_eq_some_iff.mp h
      obtain ⟨spelling, hspelling, h⟩ := Option.bind_eq_some_iff.mp h
      cases h
      obtain ⟨other, htypeKid, hspelling⟩ := readOnly_eq_some hspelling
      obtain ⟨child, hkid, hoperand⟩ := readOnly_eq_some hoperand
      simp only [Expression.isLegal, Bool.and_eq_true] at hlegal
      exact .of_node hshape
        (tryCast_gives hshape htypeKid hkid (typeRef_gives hspelling hlegal.2)
          (ih hoperand hlegal.1)) rfl rfl
    · rename_i type hshape
      obtain ⟨spelling, hspelling, rfl⟩ := Option.map_eq_some_iff.mp h
      obtain ⟨other, htypeKid, hspelling⟩ := readOnly_eq_some hspelling
      exact .of_node hshape (typeOf_gives hshape htypeKid (typeRef_gives hspelling hlegal)) rfl rfl
    · rename_i type hshape
      obtain ⟨condition, hcondition, h⟩ := Option.bind_eq_some_iff.mp h
      obtain ⟨yes, hyes, h⟩ := Option.bind_eq_some_iff.mp h
      obtain ⟨no, hno, h⟩ := Option.bind_eq_some_iff.mp h
      cases h
      obtain ⟨child, hkid, hcondition⟩ := readOnly_eq_some hcondition
      obtain ⟨other, hyesKid, hyes⟩ := readOnly_eq_some hyes
      obtain ⟨third, hnoKid, hno⟩ := readOnly_eq_some hno
      simp only [Expression.isLegal, Bool.and_eq_true] at hlegal
      exact .of_node hshape (conditional_gives hshape hkid hyesKid hnoKid (ih hcondition hlegal.1.1)
        (ih hyes hlegal.1.2) (ih hno hlegal.2)) rfl rfl
    · rename_i op type hshape
      obtain ⟨left, hleft, h⟩ := Option.bind_eq_some_iff.mp h
      obtain ⟨right, hright, h⟩ := Option.bind_eq_some_iff.mp h
      cases h
      obtain ⟨child, hkid, hleft⟩ := readOnly_eq_some hleft
      obtain ⟨other, hrightKid, hright⟩ := readOnly_eq_some hright
      split at hlegal
      · rename_i hassign
        simp only [Expression.isLegal, Bool.and_eq_true, List.contains_iff_mem] at hlegal
        rw [if_pos hassign]
        refine .of_node hshape
          (assign_gives hshape hlegal.1.1.1 hkid hrightKid (ih hleft hlegal.1.2)
            (ih hright hlegal.2)) ?_ rfl
        rw [precedence_binary, operatorPrecedence, if_pos hassign]
        rfl
      · rename_i hassign
        simp only [Expression.isLegal, Bool.and_eq_true, List.contains_iff_mem] at hlegal
        rw [if_neg hassign]
        refine .of_node hshape (binary_gives hshape hlegal.1.1 hkid hrightKid (ih hleft hlegal.1.2)
          (ih hright hlegal.2)) ?_ rfl
        rw [precedence_binary, ← operatorPrecedence_operatorText]
        rfl
    · cases h

end Printer

/-! ## Reading back -/

theorem lex_read {marks : List Mark} (hpieces : piecesOf marks = e.pieces)
    (hlegal : e.isLegal = true) :
    (lex marks).bind Grammar.read = some e := by
  have hapart : areApart (marks.flatMap piecesOfMark) = true := by
    rw [← piecesOf, hpieces]
    exact (Expression.worded e hlegal).apart
  have hlex : lex marks = some (tokensOf e.pieces) := by
    rw [lex, if_pos hapart, ← piecesOf, hpieces]
  rw [hlex, Option.bind_some, Expression.read_tokens hlegal]

/-- A printed expression is read as the expression it was, and so no other expression is printed in
the same tokens. -/
theorem Tree.marks_read_back {t : Tree} {id : NodeId} {e : Expression}
    (h : t.expression? id = some e) (hlegal : e.isLegal = true) : ∃ marks, t.marks id = .ok marks ∧
      (lex marks).bind Grammar.read = some e ∧
        ∀ (u : Tree) (other : NodeId) (f : Expression) (others : List Mark),
        u.expression? other = some f → f.isLegal = true → u.marks other = .ok others →
        lex others = lex marks → f = e := by
  obtain ⟨marks, hmarks, hpieces⟩ := (Printer.printsAs _ false h hlegal).gives
  have hread := lex_read hpieces hlegal
  refine ⟨marks, hmarks, hread, ?_⟩
  intro u other f others hf hflegal hothers hsame
  obtain ⟨printed, hprinted, hfpieces⟩ := (Printer.printsAs _ false hf hflegal).gives
  obtain rfl : printed = others := Except.ok.inj (hprinted.symm.trans hothers)
  have hfread := lex_read hfpieces hflegal
  rw [hsame, hread] at hfread
  exact (Option.some.inj hfread).symm

/-- `x = -(-y) * (a - (b - c)) == d ? (int) (y = 1) as string : new T(u++, !base.v)[typeof(int)].w;`
in the body of a method. -/
def Json.operatorSample : Json :=
  let name (word : String) := nodeOf "Reference" [("name", .text word)]
  let binary (op : String) (left right : Json) :=
    nodeOf "BinaryOp" [("op", .text op), ("left", left), ("right", right)]
  let unary (op : String) (operand : Json) :=
    nodeOf "UnaryOp" [("op", .text op), ("operand", operand)]
  let type (word : String) := ("type_ref", nodeOf "TypeRef" [("type", .text word)])
  let condition := binary "==" (binary "*" (unary "-" (unary "-" (name "y")))
    (binary "-" (name "a") (binary "-" (name "b") (name "c")))) (name "d")
  let yes := nodeOf "TryCast" [("operand", nodeOf "Cast" [type "int",
    ("operand", binary "=" (name "y") (nodeOf "Literal" [("value", .int 1)]))]), type "string"]
  let counted := nodeOf "UnaryOp"
    [("op", .text "++"), ("operand", name "u"), ("postfix", .bool true)]
  let inherited := nodeOf "MemberAccess" [("target", nodeOf "SuperRef" []), ("name", .text "v")]
  let made := nodeOf "Invocation"
    [("target", nodeOf "Reference" [("name", .text "T"), ("symbol", .int 1)]),
      ("args", .list [counted, unary "not" inherited])]
  let no := nodeOf "MemberAccess" [("target", nodeOf "Indexer" [("target", made),
    ("indices", .list [nodeOf "TypeOf" [type "int"]])]), ("name", .text "w")]
  methodDocument [("1", .record [("kind", .text "Constructor"), ("name", .text "T")])]
    [nodeOf "ExpressionStatement" [("expr", binary "=" (name "x")
      (nodeOf "Conditional" [("cond", condition), ("yes", yes), ("no", no)]))]]

def Json.operatorTokens : List String :=
  ["x", "=", "-", "(", "-", "y", ")", "*", "(", "a", "-", "(", "b", "-", "c", ")", ")", "==", "d",
    "?", "(", "int", ")", "(", "y", "=", "1", ")", "as", "string", ":", "new", "T", "(", "u", "++",
    ",", "!", "base", ".", "v", ")", "[", "typeof", "(", "int", ")", "]", ".", "w"]

theorem Tree.marks_operatorSample : ∃ document id e marks, readDocument Json.operatorSample .null =
    .ok document ∧ document.tree.expression? id = some e ∧ e.isLegal = true ∧
      tokensOf e.pieces = Json.operatorTokens ∧ document.tree.marks id = .ok marks ∧
      (lex marks).bind Grammar.read = some e := by
  obtain ⟨document, hread, h⟩ := Json.exists_of_holds (show Json.operatorSample.holds (fun t =>
    (t.walk t.root).any fun id => (t.expression? id).any fun e =>
      e.isLegal && tokensOf e.pieces == Json.operatorTokens) = true by decide +kernel)
  simp only [List.any_eq_true, Option.any_eq_true, Bool.and_eq_true, beq_iff_eq] at h
  obtain ⟨id, _, e, he, hlegal, htokens⟩ := h
  obtain ⟨marks, hmarks, hback, _⟩ := Tree.marks_read_back he hlegal
  exact ⟨document, id, e, marks, hread, he, hlegal, htokens, hmarks, hback⟩

end UnitySharp
