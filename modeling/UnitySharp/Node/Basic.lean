import UnitySharp.Comment.Basic
import UnitySharp.Node.Shape

/-!
# Nodes

A node of a tree: its shape, its place in the source, its children by role, the slot of its parent
and the comments it carries.  A role meant for one child is empty or holds one; a document may also
put a list there, which is kept as it is.
-/

namespace UnitySharp

inductive Occupants (α : Type) where
  | empty
  | one (child : α)
  | many (children : List α)
deriving Inhabited, Repr

namespace Occupants

def toList {α : Type} : Occupants α → List α
  | .empty => []
  | .one child => [child]
  | .many children => children

def one? {α : Type} : Occupants α → Option α
  | .one child => some child
  | _ => none

def map {α β : Type} (f : α → β) : Occupants α → Occupants β
  | .empty => .empty
  | .one child => .one (f child)
  | .many children => .many (children.map f)

def mapM {m : Type → Type} [Monad m] {α β : Type} (f : α → m β) : Occupants α → m (Occupants β)
  | .empty => pure .empty
  | .one child => do return .one (← f child)
  | .many children => do return .many (← children.mapM f)

def isEmpty {α : Type} : Occupants α → Bool
  | .empty => true
  | _ => false

def ofOption {α : Type} : Option α → Occupants α
  | none => .empty
  | some child => .one child

end Occupants

abbrev Kids (α : Type) := List (Role × Occupants α)

def kidsAt {α : Type} (role : Role) : Kids α → Occupants α
  | [] => .empty
  | (r, occupants) :: rest => if r = role then occupants else kidsAt role rest

def setKids {α : Type} (role : Role) (occupants : Occupants α) : Kids α → Kids α
  | [] => []
  | (r, old) :: rest =>
    if r = role then (r, occupants) :: rest else (r, old) :: setKids role occupants rest

def allKids {α : Type} (kids : Kids α) : List α :=
  kids.flatMap fun entry => entry.2.toList

/-- A node.  `givenType` is a type that a pass has given to a node whose shape has no place for
one. -/
structure Node where
  shape : Shape
  givenType : Option (Option Ty)
  position : Option Position
  parent : Option NodeId
  kids : Kids NodeId
  comments : List Comment
deriving Inhabited, Repr

namespace Node

def children (node : Node) : List NodeId :=
  allKids node.kids

def kid (node : Node) (role : Role) : Occupants NodeId :=
  kidsAt role node.kids

def kidList (node : Node) (role : Role) : List NodeId :=
  (node.kid role).toList

/-- The type of a node, known or not; nothing for a node that has no type at all. -/
def type? (node : Node) : Option (Option Ty) :=
  node.shape.type?.or node.givenType

def withType (node : Node) (type : Option Ty) : Node :=
  if node.shape.type?.isSome then { node with shape := node.shape.withType type }
  else { node with givenType := some type }

/-- A node without a place in the source was made up. -/
def isSynthetic (node : Node) : Bool :=
  node.position.isNone

end Node

end UnitySharp
