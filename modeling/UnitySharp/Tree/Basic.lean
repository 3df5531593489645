import UnitySharp.Node.Basic

/-!
# Trees

The nodes of a module live in numbered slots.  A node that has been cut out of the tree stays in its
slot without a parent.  Everything reachable from the root is the tree proper.  A pass that fails
halfway may leave loose nodes in the tree, which have no slot and no parent.
-/

namespace UnitySharp

/-- A module's tree.  `renamed` lists the types that had to take another name, and `coined` counts
the symbols that passes have made. -/
structure Tree where
  nodes : Array Node
  loose : Array Node
  root : NodeId
  path : Name
  source : Json
  renamed : List (String × String)
  coined : Nat
deriving Inhabited

namespace Tree

def size (t : Tree) : Nat :=
  t.nodes.size

def node (t : Tree) : NodeId → Node
  | .slot n => t.nodes.getD n default
  | .loose n => t.loose.getD n default

def shape (t : Tree) (id : NodeId) : Shape :=
  (t.node id).shape

def kind (t : Tree) (id : NodeId) : NodeKind :=
  (t.shape id).kind

def parent (t : Tree) (id : NodeId) : Option NodeId :=
  (t.node id).parent

def children (t : Tree) (id : NodeId) : List NodeId :=
  (t.node id).children

def label (t : Tree) (id : NodeId) : String :=
  "<" ++ (t.kind id).word ++ "#" ++ toString id.number ++ ">"

def update (t : Tree) (id : NodeId) (f : Node → Node) : Tree :=
  match id with
  | .slot n => { t with nodes := t.nodes.modify n f }
  | .loose n => { t with loose := t.loose.modify n f }

def setParent (t : Tree) (id : NodeId) (parent : Option NodeId) : Tree :=
  t.update id fun node => { node with parent }

def setShape (t : Tree) (id : NodeId) (shape : Shape) : Tree :=
  t.update id fun node => { node with shape }

def setType (t : Tree) (id : NodeId) (type : Option Ty) : Tree :=
  t.update id fun node => node.withType type

def setRole (t : Tree) (id : NodeId) (role : Role) (occupants : Occupants NodeId) : Tree :=
  t.update id fun node => { node with kids := setKids role occupants node.kids }

def detach (t : Tree) (id : NodeId) : Tree :=
  t.setParent id none

def detachAll (t : Tree) (ids : List NodeId) : Tree :=
  ids.foldl detach t

/-- The nearest proper ancestor with a property, looked for along at most `fuel` links. -/
def ancestorWithin (t : Tree) (holds : NodeKind → Bool) : Nat → NodeId → Option NodeId
  | 0, _ => none
  | fuel + 1, id =>
    match t.parent id with
    | none => none
    | some up => if holds (t.kind up) then some up else t.ancestorWithin holds fuel up

def ancestor? (t : Tree) (holds : NodeKind → Bool) (id : NodeId) : Option NodeId :=
  t.ancestorWithin holds t.size id

/-- The end of the chain of parents, followed along at most `fuel` links. -/
def topWithin (t : Tree) : Nat → NodeId → NodeId
  | 0, id => id
  | fuel + 1, id =>
    match t.parent id with
    | none => id
    | some up => t.topWithin fuel up

def isAttached (t : Tree) (id : NodeId) : Bool :=
  t.topWithin t.size id == t.root

/-- A node and everything beneath it, each node before its children and children in source order,
down to a depth. -/
def preorderWithin (t : Tree) : Nat → NodeId → List NodeId
  | 0, _ => []
  | depth + 1, id => id :: (t.children id).flatMap (t.preorderWithin depth)

/-- How many nodes lie beneath a node, itself included, down to a depth. -/
def weightWithin (t : Tree) : Nat → NodeId → Nat
  | 0, _ => 0
  | depth + 1, id =>
    (t.children id).foldr (fun child total => t.weightWithin depth child + total) 1

/-- Takes nodes from a stack, putting the children of each in its place, for a number of steps. -/
def walkStack (t : Tree) : Nat → List NodeId → List NodeId
  | _, [] => []
  | 0, _ :: _ => []
  | steps + 1, id :: rest => id :: t.walkStack steps (t.children id ++ rest)

def walk (t : Tree) (id : NodeId) : List NodeId :=
  t.walkStack (t.weightWithin (t.size + 1) id) [id]

/-- Whether every node has a slot, every child's parent is its holder and the root has none. -/
def isLinked (t : Tree) : Bool :=
  ((t.walk t.root).all fun id =>
      !id.isLoose && (t.children id).all fun child => t.parent child == some id) &&
    (t.parent t.root).isNone

end Tree

end UnitySharp
