import UnitySharp.Pass.Basic
import UnitySharp.Switch.Lowered

/-!
# Switches with only a default

A switch that has nothing but a default is lowered to the assignment of its temporary followed by
the statements of the default, perhaps with a jump to the label after them.  It becomes a local
variable that holds the subject, and an ordinary block.
-/

namespace UnitySharp

namespace Tree

def splitEndLabel (t : Tree) (statements : List NodeId) : List NodeId × Option Name :=
  match statements.getLast?.map t.shape with
  | some (.label name) => (statements.dropLast, some name)
  | _ => (statements, none)

/-- Whether the only jump to a label, if there is any, is the last of some statements. -/
def jumpsOnlyAtEnd (t : Tree) (label : Name) (statements : List NodeId) : Bool :=
  match statements.flatMap (t.gotosTo label) with
  | [] => true
  | [jump] => statements.getLast? == some jump
  | _ => false

/-- Whether the statements after the one that sets a temporary are just a default. -/
def isOnlyDefault (t : Tree) (temporary : Symbol) (statements : List NodeId) :
    Except Fault Bool := do
  let (body, label) := t.splitEndLabel statements
  let hasCase ← statements.anyM fun statement => do
    .ok (← t.switchCase? temporary statement).isSome
  .ok (!hasCase &&
    (match label with
      | some label => t.jumpsOnlyAtEnd label body
      | none => true) &&
    !(body.any (t.mentions temporary)))

def defaultBody (t : Tree) (statements : List NodeId) : List NodeId :=
  match t.splitEndLabel statements with
  | (body, none) => body
  | (body, some label) =>
    match body.getLast? with
    | some last => if t.isGotoTo label last then body.dropLast else body
    | none => body

end Tree

namespace Switch

def collapse (block first : NodeId) (rest : List NodeId) (temporary : Symbol) : Pass Unit := do
  let t ← Pass.tree
  let assignment ← Pass.child first .expression
  let body := (t.defaultBody rest).map Draft.kept
  let known := temporary.type <|> t.typeOf assignment
  let type ← Pass.ofExcept (Tree.typeOr known (t.typeIn assignment .right))
  let symbol ← Pass.coin .localVariable (temporary.name.mapText surfacedName) type
  let subject ← Pass.child assignment .right
  Pass.remove subject
  let declaration : Draft := .declaration symbol type (some (.kept subject)) (t.position first)
  if (t.parent block).any fun parent => t.kind parent == .block then
    let _ ← Pass.refill block .statements body
    let _ ← Pass.insertBefore block declaration
  else
    let _ ← Pass.refill block .statements [declaration, .block body none]
  Pass.say 3 ("Switch over " ++ temporary.name.plain ++ " has only a default")

def collapseRule : Pass.Rule := fun visit id => do
  let t ← Pass.tree
  if t.kind id = .block then
    match t.listed id .statements with
    | [] => pure ()
    | first :: rest =>
      match ← Pass.ofExcept (t.switchTemporary? first) with
      | some temporary =>
        if ← Pass.ofExcept (t.isOnlyDefault temporary rest) then collapse id first rest temporary
      | none => pure ()
  Pass.descend visit id

end Switch

end UnitySharp
