import UnitySharp.Tree.Basic

/-!
# Drafts

A draft is a subtree that is about to be put into a tree.  Planting it gives each new node a slot, a
node before its children and children in source order.  A kept node brings its whole subtree along,
and whatever is loose in it gets its slot on the way.  An amended node is a kept one whose children
are given anew.
-/

namespace UnitySharp

inductive Draft where
  | kept (id : NodeId)
  | amended (id : NodeId) (kids : List (Role × Occupants Draft))
  | fresh (shape : Shape) (position : Option Position) (kids : List (Role × Occupants Draft))
  | typed (type : Option Ty) (draft : Draft)
deriving Inhabited

namespace Tree

def pushNode (t : Tree) (node : Node) : NodeId × Tree :=
  (.slot t.size, { t with nodes := t.nodes.push node })

def addLoose (t : Tree) (node : Node) : NodeId × Tree :=
  (.loose t.loose.size, { t with loose := t.loose.push node })

def giveSlot (t : Tree) (id : NodeId) : NodeId × Tree :=
  match id with
  | .slot n => (.slot n, t)
  | .loose _ => t.pushNode (t.node id)

def settleAll (settle : Tree → NodeId → NodeId × Tree) : Tree → List NodeId → List NodeId × Tree
  | t, [] => ([], t)
  | t, id :: rest =>
    let (id, t) := settle t id
    let (ids, t) := settleAll settle t rest
    (id :: ids, t)

def settleOccupants (settle : Tree → NodeId → NodeId × Tree) (t : Tree) :
    Occupants NodeId → Occupants NodeId × Tree
  | .empty => (.empty, t)
  | .one child =>
    let (id, t) := settle t child
    (.one id, t)
  | .many children =>
    let (ids, t) := settleAll settle t children
    (.many ids, t)

def settleKids (settle : Tree → NodeId → NodeId × Tree) : Tree → Kids NodeId → Kids NodeId × Tree
  | t, [] => ([], t)
  | t, (role, occupants) :: rest =>
    let (settled, t) := settleOccupants settle t occupants
    let (others, t) := settleKids settle t rest
    ((role, settled) :: others, t)

def settleWithin : Nat → Tree → NodeId → NodeId × Tree
  | 0, t, id => (id, t)
  | depth + 1, t, id =>
    let (id, t) := t.giveSlot id
    let (kids, t) := settleKids (settleWithin depth) t (t.node id).kids
    (id, t.update id fun node => { node with kids })

def settle (t : Tree) (id : NodeId) : NodeId × Tree :=
  if t.loose.isEmpty then (id, t) else settleWithin (t.size + t.loose.size + 1) t id

def adoptWithin : Nat → Tree → Option NodeId → NodeId → Tree
  | 0, t, _, _ => t
  | depth + 1, t, parent, id =>
    (t.children id).foldl (fun t child => adoptWithin depth t (some id) child)
      (t.setParent id parent)

def adopt (t : Tree) (parent : Option NodeId) (id : NodeId) : Tree :=
  adoptWithin (t.size + 1) t parent id

def bareNode (shape : Shape) (position : Option Position) (parent : Option NodeId) : Node :=
  { shape, givenType := none, position, parent, kids := [], comments := [] }

mutual

def plant (t : Tree) (parent : Option NodeId) : Draft → NodeId × Tree
  | .kept id =>
    let (id, t) := t.settle id
    (id, t.adopt parent id)
  | .amended id kids =>
    let (id, t) := t.giveSlot id
    let (kids, planted) := plantKids (t.setParent id parent) id kids
    (id, planted.update id fun node => { node with kids })
  | .fresh shape position kids =>
    let (id, t) := t.pushNode (bareNode shape position parent)
    let (kids, planted) := plantKids t id kids
    (id, planted.update id fun node => { node with kids })
  | .typed type draft =>
    let (id, t) := plant t parent draft
    (id, t.setType id type)

def plantKids (t : Tree) (parent : NodeId) :
    List (Role × Occupants Draft) → Kids NodeId × Tree
  | [] => ([], t)
  | (role, occupants) :: rest =>
    let (planted, t) := plantOccupants t parent occupants
    let (others, t) := plantKids t parent rest
    ((role, planted) :: others, t)

def plantOccupants (t : Tree) (parent : NodeId) : Occupants Draft → Occupants NodeId × Tree
  | .empty => (.empty, t)
  | .one draft =>
    let (id, t) := plant t (some parent) draft
    (.one id, t)
  | .many drafts =>
    let (ids, t) := plantAll t parent drafts
    (.many ids, t)

def plantAll (t : Tree) (parent : NodeId) : List Draft → List NodeId × Tree
  | [] => ([], t)
  | draft :: rest =>
    let (id, t) := plant t (some parent) draft
    let (ids, t) := plantAll t parent rest
    (id :: ids, t)

end

/-- A draft of a copy of the nodes beneath a node, down to a depth.  Copies carry no comments. -/
def copyWithin (t : Tree) : Nat → NodeId → Draft
  | 0, id => .kept id
  | depth + 1, id =>
    let node := t.node id
    let copied : Draft := .fresh node.shape node.position
      (node.kids.map fun entry => (entry.1, entry.2.map (t.copyWithin depth)))
    match node.givenType with
    | some type => .typed type copied
    | none => copied

def copy (t : Tree) (id : NodeId) : Draft :=
  t.copyWithin (t.size + 1) id

def ofDraft (draft : Draft) (path : Name) (source : Json) : Tree :=
  let (root, t) := plant { (default : Tree) with path, source } none draft
  { t with root }

end Tree

namespace Draft

def shape (t : Tree) : Draft → Shape
  | .kept id => t.shape id
  | .amended id _ => t.shape id
  | .fresh shape _ _ => shape
  | .typed _ draft => draft.shape t

def type? (t : Tree) : Draft → Option (Option Ty)
  | .kept id => (t.node id).type?
  | .amended id _ => (t.node id).type?
  | .fresh shape _ _ => shape.type?
  | .typed type _ => some type

end Draft

end UnitySharp
