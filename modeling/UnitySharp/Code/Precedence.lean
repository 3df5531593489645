import UnitySharp.Node.Shape

/-!
# Binding strength

How tightly each kind of expression holds together; an operand that binds more loosely than its
place allows is put in parentheses.
-/

namespace UnitySharp

def assignmentOperators : List String :=
  ["=", "+=", "-=", "*=", "/=", "%=", "&=", "|=", "^=", "<<=", ">>="]

def binaryPrecedence? : String → Option Nat
  | "or" => some 3
  | "||" => some 3
  | "and" => some 4
  | "&&" => some 4
  | "|" => some 5
  | "^" => some 6
  | "&" => some 7
  | "==" => some 8
  | "!=" => some 8
  | "<" => some 9
  | ">" => some 9
  | "<=" => some 9
  | ">=" => some 9
  | "<<" => some 10
  | ">>" => some 10
  | "+" => some 11
  | "-" => some 11
  | "*" => some 12
  | "/" => some 12
  | "%" => some 12
  | _ => none

namespace Precedence

def lambda : Nat := 0

def assignment : Nat := 1

def conditional : Nat := 2

def relational : Nat := 9

def unary : Nat := 13

def primary : Nat := 14

end Precedence

/-- The binding strength of an operator by its text; one that is not known binds like an
assignment. -/
def operatorPrecedence (op : String) : Nat :=
  if assignmentOperators.contains op then Precedence.assignment
  else (binaryPrecedence? op).getD Precedence.assignment

/-- The binding strength of an expression.  An operator has to be something that can be looked
up. -/
def Shape.precedence : Shape → Except Fault Nat
  | .binary op _ =>
    op.key?.map fun key => (key.map operatorPrecedence).getD Precedence.assignment
  | .conditional _ => .ok Precedence.conditional
  | .unary _ _ _ => .ok Precedence.unary
  | .cast _ => .ok Precedence.unary
  | .tryCast _ => .ok Precedence.relational
  | .closure _ => .ok Precedence.lambda
  | _ => .ok Precedence.primary

def operatorWords : List (String × String) :=
  [("and", "&&"), ("or", "||"), ("not", "!")]

def operatorToken (op : Name) : Except Fault Name :=
  (op.find? operatorWords).map fun found => (found.map Name.text).getD op

end UnitySharp
