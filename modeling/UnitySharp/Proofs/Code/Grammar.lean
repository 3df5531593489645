import UnitySharp.Code.Precedence
import UnitySharp.Code.Spelling
import UnitySharp.Code.Writer

/-!
# The grammar of expressions

A reader that makes expressions of C# out of marks, by way of tokens.  It goes by levels: assignment
and the conditional, then the operators between two operands from the loosest to the tightest, then
what stands in front of an operand, then what follows one.  A type is one token.  A few steps of
fuel for each token are enough.
-/

namespace UnitySharp

inductive Expression where
  | name (word : String)
  | selfRef
  | superRef
  | literal (text : String)
  | member (target : Expression) (name : String)
  | index (target : Expression) (indices : List Expression)
  | call (target : Expression) (arguments : List Expression)
  | create (type : String) (arguments : List Expression)
  | prefixed (op : String) (operand : Expression)
  | postfixed (op : String) (operand : Expression)
  | cast (type : String) (operand : Expression)
  | tryCast (operand : Expression) (type : String)
  | typeOf (type : String)
  | conditional (condition yes no : Expression)
  | binary (op : String) (left right : Expression)
  | assign (op : String) (left right : Expression)
deriving Repr, Inhabited

namespace Grammar

/-! ## Tokens -/

def keywords : List String :=
  ["abstract", "as", "base", "bool", "break", "byte", "case", "catch", "char", "checked", "class",
    "const", "continue", "decimal", "default", "delegate", "do", "double", "else", "enum", "event",
    "explicit", "extern", "false", "finally", "fixed", "float", "for", "foreach", "goto", "if",
    "implicit", "in", "int", "interface", "internal", "is", "lock", "long", "namespace", "new",
    "null", "object", "operator", "out", "override", "params", "private", "protected", "public",
    "readonly", "ref", "return", "sbyte", "sealed", "short", "sizeof", "stackalloc", "static",
    "string", "struct", "switch", "this", "throw", "true", "try", "typeof", "uint", "ulong",
    "unchecked", "unsafe", "ushort", "using", "virtual", "void", "volatile", "while"]

def isName (token : String) : Bool :=
  isIdentifier token && !keywords.contains token

def isDigit (c : Char) : Bool :=
  '0' ≤ c && c ≤ '9'

def afterDigits? : List Char → Option (List Char)
  | c :: rest => if isDigit c then some (rest.dropWhile isDigit) else none
  | [] => none

def afterFraction : List Char → List Char
  | '.' :: rest => (afterDigits? rest).getD ('.' :: rest)
  | cs => cs

def afterSign : List Char → List Char
  | '+' :: rest => rest
  | '-' :: rest => rest
  | cs => cs

def afterExponent : List Char → List Char
  | 'e' :: rest => (afterDigits? (afterSign rest)).getD ('e' :: rest)
  | 'E' :: rest => (afterDigits? (afterSign rest)).getD ('E' :: rest)
  | cs => cs

def numberEndings : List String :=
  ["", "u", "U", "l", "L", "ul", "uL", "Ul", "UL", "lu", "lU", "Lu", "LU", "f", "F", "d", "D", "m",
    "M"]

def isNumber (cs : List Char) : Bool :=
  (afterDigits? cs).any fun rest =>
    numberEndings.contains (String.ofList (afterExponent (afterFraction rest)))

def isQuotedUpTo (mark : Char) : List Char → Bool
  | [] => false
  | [c] => c == mark
  | c :: next :: rest =>
    if c == '\\' then isQuotedUpTo mark rest
    else c != mark && c != '\n' && c != '\r' && isQuotedUpTo mark (next :: rest)

def isQuoted : List Char → Bool
  | mark :: rest => (mark == '"' || mark == '\x27') && isQuotedUpTo mark rest
  | [] => false

def isLiteral (token : String) : Bool :=
  ["null", "true", "false"].contains token || isNumber token.toList || isQuoted token.toList

def typeKeywords : List String :=
  ["bool", "byte", "char", "decimal", "double", "float", "int", "long", "object", "sbyte", "short",
    "string", "uint", "ulong", "ushort", "void"]

def beginsWord (c : Char) : Bool :=
  isIdentifierStart c || c == '$' || c == '@' || 128 ≤ c.toNat

def isWordLike (token : String) : Bool :=
  token.toList.head?.any beginsWord &&
    token.toList.getLast?.any fun c => beginsWord c || isDigit c || c == '>' || c == ']'

def isType (token : String) : Bool :=
  isWordLike token && (typeKeywords.contains token || !keywords.contains token)

def operatorLevels : List (List String) :=
  [["||"], ["&&"], ["|"], ["^"], ["&"], ["==", "!="], ["<", ">", "<=", ">=", "as"], ["<<", ">>"],
    ["+", "-"], ["*", "/", "%"]]

def level? (token : String) : Option Nat :=
  operatorLevels.findIdx? fun operators => operators.contains token

def frontOperators : List String :=
  ["!", "-", "+", "~", "++", "--"]

def rearOperators : List String :=
  ["++", "--"]

/-- Whether a token begins what may follow a cast: there, a type in parentheses is not an operand
itself. -/
def beginsCastOperand (token : String) : Bool :=
  ["(", "~", "!"].contains token || isLiteral token ||
    (isIdentifier token && token != "as" && token != "is")

def cast? : List String → Option (String × List String)
  | opening :: type :: closing :: next :: rest =>
    if opening = "(" ∧ isType type ∧ closing = ")" ∧ beginsCastOperand next then some
    (type, next :: rest) else none
  | _ => none

/-! ## Taking marks apart -/

inductive Piece where
  | token (s : String)
  | blank
deriving DecidableEq, Repr

/-- The tokens of a text with no blanks around it: a dot in front is one by itself, and so is a
parenthesis at the end. -/
def tokensOfText (cs : List Char) : List String :=
  match cs with
  | [] => []
  | '.' :: rest => [".", String.ofList rest]
  | cs =>
    if cs.getLast? = some '(' ∧
      cs.length ≠ 1 then [String.ofList cs.dropLast, "("] else [String.ofList cs]

def piecesOfText (s : String) : List Piece :=
  let isBlank (c : Char) : Bool := c == ' '
  let cs := s.toList
  let inner := ((cs.dropWhile isBlank).reverse.dropWhile isBlank).reverse
  (if cs.head?.any isBlank then [.blank] else []) ++ (tokensOfText inner).map .token ++
    (if cs.getLast?.any isBlank then [.blank] else [])

def piecesOfMark : Mark → List Piece
  | .text s => piecesOfText s
  | .name (.text s) => piecesOfText s
  | .line => [.blank]
  | _ => []

def tokensOf (pieces : List Piece) : List String :=
  pieces.filterMap fun piece =>
    match piece with
    | .token s => some s
    | .blank => none

def isWordPart (c : Char) : Bool :=
  beginsWord c || isDigit c

def isSymbol (c : Char) : Bool :=
  ['+', '-', '*', '/', '%', '&', '|', '^', '<', '>', '=', '!', '~'].contains c

def runTogether (first second : String) : Bool :=
  match first.toList.getLast?, second.toList.head? with
  | some x, some y => (isWordPart x && isWordPart y) || (isSymbol x && isSymbol y) ||
      (x == '.' && isDigit y)
  | _, _ => true

def areApart : List Piece → Bool
  | [] => true
  | .blank :: rest => areApart rest
  | .token _ :: [] => true
  | .token _ :: .blank :: rest => areApart rest
  | .token first :: .token second :: rest =>
    !runTogether first second && areApart (.token second :: rest)

/-- The tokens that marks are read as. -/
def lex (marks : List Mark) : Option (List String) :=
  let pieces := marks.flatMap piecesOfMark
  if areApart pieces then some (tokensOf pieces) else none

/-! ## The reader -/

mutual

def expression : Nat → List String → Option (Expression × List String)
  | 0, _ => none
  | fuel + 1, tokens => do
    let (left, rest) ← operation fuel 0 tokens
    match rest with
    | [] => some (left, [])
    | token :: rest =>
      if token = "?" then do
        let (yes, rest) ← expression fuel rest
        match rest with
        | [] => none
        | token :: rest =>
          if token = ":" then do
            let (no, rest) ← expression fuel rest
            some (.conditional left yes no, rest)
          else none
      else if assignmentOperators.contains token then do
        let (right, rest) ← expression fuel rest
        some (.assign token left right, rest)
      else some (left, token :: rest)

def operation : Nat → Nat → List String → Option (Expression × List String)
  | 0, _, _ => none
  | fuel + 1, least, tokens => do
    let (left, rest) ← unary fuel tokens
    operators fuel least left rest

def operators : Nat → Nat → Expression → List String → Option (Expression × List String)
  | 0, _, _, _ => none
  | _ + 1, _, left, [] => some (left, [])
  | fuel + 1, least, left, token :: rest =>
    match level? token with
    | none => some (left, token :: rest)
    | some level =>
      if level < least then some (left, token :: rest)
      else if token = "as" then
        match rest with
        | [] => none
        | type :: rest => if isType type then operators fuel least (.tryCast left type)
          rest else none
      else do
        let (right, rest) ← operation fuel (level + 1) rest
        operators fuel least (.binary token left right) rest

def unary : Nat → List String → Option (Expression × List String)
  | 0, _ => none
  | _ + 1, [] => none
  | fuel + 1, token :: rest =>
    match cast? (token :: rest) with
    | some (type, rest) => do
      let (operand, rest) ← unary fuel rest
      some (.cast type operand, rest)
    | none =>
      if frontOperators.contains token then do
        let (operand, rest) ← unary fuel rest
        some (.prefixed token operand, rest)
      else primary fuel (token :: rest)

def primary : Nat → List String → Option (Expression × List String)
  | 0, _ => none
  | fuel + 1, tokens => do
    let (left, rest) ← atom fuel tokens
    followers fuel left rest

def atom : Nat → List String → Option (Expression × List String)
  | 0, _ => none
  | _ + 1, [] => none
  | fuel + 1, token :: rest =>
    if token = "this" then some (.selfRef, rest)
    else if token = "base" then some (.superRef, rest)
    else if token = "typeof" then
      match rest with
      | opening :: type :: closing :: rest =>
        if opening = "(" ∧ isType type ∧ closing = ")" then some (.typeOf type, rest) else none
      | _ => none
    else if token = "new" then
      match rest with
      | type :: opening :: rest =>
        if isType type ∧ opening = "(" then do
          let (arguments, rest) ← arguments fuel ")" rest
          some (.create type arguments, rest)
        else none
      | _ => none
    else if token = "(" then do
      let (inner, rest) ← expression fuel rest
      match rest with
      | [] => none
      | token :: rest => if token = ")" then some (inner, rest) else none
    else if isLiteral token then some (.literal token, rest)
    else if isName token then some (.name token, rest)
    else none

def followers : Nat → Expression → List String → Option (Expression × List String)
  | 0, _, _ => none
  | _ + 1, left, [] => some (left, [])
  | fuel + 1, left, token :: rest =>
    if token = "." then
      match rest with
      | [] => none
      | name :: rest => if isIdentifier name then followers fuel (.member left name) rest else none
    else if token = "[" then do
      let (indices, rest) ← arguments fuel "]" rest
      followers fuel (.index left indices) rest
    else if token = "(" then do
      let (arguments, rest) ← arguments fuel ")" rest
      followers fuel (.call left arguments) rest
    else if rearOperators.contains token then followers fuel (.postfixed token left) rest
    else some (left, token :: rest)

def arguments : Nat → String → List String → Option (List Expression × List String)
  | 0, _, _ => none
  | _ + 1, _, [] => none
  | fuel + 1, closing, token :: rest =>
    if token = closing then some ([], rest) else someArguments fuel closing (token :: rest)

def someArguments : Nat → String → List String → Option (List Expression × List String)
  | 0, _, _ => none
  | fuel + 1, closing, tokens => do
    let (first, rest) ← expression fuel tokens
    match rest with
    | [] => none
    | token :: rest =>
      if token = closing then some ([first], rest)
      else if token = "," then do
        let (others, rest) ← someArguments fuel closing rest
        some (first :: others, rest)
      else none

end

def read (tokens : List String) : Option Expression :=
  match expression (6 * tokens.length) tokens with
  | some (result, []) => some result
  | _ => none

end Grammar

end UnitySharp
