import UnitySharp.Tree.Basic

/-!
# Questions about nodes

What the passes ask about a node before they touch it: its only child in a role, its type, what it
is bound to, and whether an expression or a list of statements has one of a few well-known forms.  A
question about a part that is not there is a fault.
-/

namespace UnitySharp.Tree

def only? (t : Tree) (id : NodeId) (role : Role) : Option NodeId :=
  ((t.node id).kid role).one?

def child (t : Tree) (id : NodeId) (role : Role) : Except Fault NodeId :=
  match t.only? id role with
  | some child => .ok child
  | none => .error .unfit

def listed (t : Tree) (id : NodeId) (role : Role) : List NodeId :=
  (t.node id).kidList role

def lacks (t : Tree) (id : NodeId) (role : Role) : Bool :=
  ((t.node id).kid role).isEmpty

def statementsOf (t : Tree) (block : NodeId) : Except Fault (List NodeId) :=
  if t.kind block = .block then .ok (t.listed block .statements) else .error .unfit

def position (t : Tree) (id : NodeId) : Option Position :=
  (t.node id).position

def typeOf (t : Tree) (id : NodeId) : Option Ty :=
  (t.node id).type?.join

def typeAt (t : Tree) (id : NodeId) : Except Fault (Option Ty) :=
  match (t.node id).type? with
  | some type => .ok type
  | none => .error .unfit

def typeIn (t : Tree) (id : NodeId) (role : Role) : Except Fault (Option Ty) := do
  t.typeAt (← t.child id role)

/-- A type, or the one found by looking further if it is not known. -/
def typeOr (type : Option Ty) (further : Except Fault (Option Ty)) : Except Fault (Option Ty) :=
  match type with
  | some type => .ok (some type)
  | none => further

def symbolOf (t : Tree) (id : NodeId) : Option Symbol :=
  (t.shape id).symbol?

def binding (t : Tree) (call : NodeId) : Option Symbol :=
  (t.only? call .target).bind t.symbolOf

def assignmentOf? (t : Tree) (statement : NodeId) : Option NodeId :=
  if t.kind statement = .expressionStatement then
    (t.only? statement .expression).filter fun expression => (t.shape expression).isAssignment
  else none

def isReferenceTo (t : Tree) (symbol : Symbol) (id : NodeId) : Bool :=
  match t.shape id with
  | .reference _ (some bound) _ => bound.isSame symbol
  | _ => false

def namedSymbol? (t : Tree) (id : NodeId) : Option Symbol :=
  match t.shape id with
  | .reference _ symbol _ => symbol
  | .memberAccess _ symbol _ => symbol
  | _ => none

def namedType? (t : Tree) (id : NodeId) : Option Ty :=
  match t.namedSymbol? id with
  | some symbol => if symbol.kind = .type then symbol.type <|> t.typeOf id else none
  | none => none

def methodGroup? (t : Tree) (id : NodeId) : Option Symbol :=
  (t.namedSymbol? id).filter fun symbol => symbol.kind == .method

def isSideEffectFreeWithin (t : Tree) : Nat → NodeId → Bool
  | 0, _ => false
  | depth + 1, id =>
    match t.kind id with
    | .reference | .literal | .selfRef => true
    | .memberAccess =>
      match t.only? id .target with
      | some target => t.isSideEffectFreeWithin depth target
      | none => false
    | _ => false

/-- Whether an expression may be evaluated more than once: a name, a literal, or a member of
such. -/
def isSideEffectFree (t : Tree) (id : NodeId) : Bool :=
  t.isSideEffectFreeWithin (t.size + 1) id

def endsInJumpWithin (t : Tree) : Nat → List NodeId → Bool
  | 0, _ => false
  | depth + 1, statements =>
    match statements.getLast? with
    | none => false
    | some last =>
      if t.kind last = .block then t.endsInJumpWithin depth (t.listed last .statements)
      else (t.kind last).isJump

/-- Whether control cannot run past the last of some statements. -/
def endsInJump (t : Tree) (statements : List NodeId) : Bool :=
  t.endsInJumpWithin (t.size + 1) statements

end UnitySharp.Tree
