import UnitySharp.Tree.Draft

/-!
# Edits

Each operation looks up the node's place in its parent first and fails before anything has been
changed; a node without a parent cannot be edited around.  What is put in may contain what is taken
out.
-/

namespace UnitySharp

/-- Where a node stands: the role under its parent, with its index where the role holds a list. -/
structure Place where
  parent : NodeId
  role : Role
  index : Option Nat

namespace Tree

def placeAmong (parent id : NodeId) : Kids NodeId → Option Place
  | [] => none
  | (role, occupants) :: rest =>
    match occupants with
    | .empty => placeAmong parent id rest
    | .one child => if child = id then some ⟨parent, role, none⟩ else placeAmong parent id rest
    | .many children =>
      match children.idxOf? id with
      | some index => some ⟨parent, role, some index⟩
      | none => placeAmong parent id rest

def place (t : Tree) (id : NodeId) : Except Fault Place :=
  match t.parent id with
  | none => .error (.detached (t.kind id).word id)
  | some parent =>
    match placeAmong parent id (t.node parent).kids with
    | some place => .ok place
    | none => .error .misplaced

def placeInList (t : Tree) (id : NodeId) : Except Fault (NodeId × Role × Nat) :=
  match t.place id with
  | .error fault => .error fault
  | .ok ⟨parent, role, some index⟩ => .ok (parent, role, index)
  | .ok ⟨_, _, none⟩ => .error .misplaced

/-- What a role of a node holds once the list in it has been changed. -/
def changeList (t : Tree) (parent : NodeId) (role : Role) (f : List NodeId → List NodeId) : Tree :=
  t.setRole parent role (.many (f ((t.node parent).kidList role)))

def replace (t : Tree) (old : NodeId) (new : Draft) : Except Fault (NodeId × Tree) :=
  match t.place old with
  | .error fault => .error fault
  | .ok place =>
    let (id, t) := plant (t.detach old) (some place.parent) new
    match place.index with
    | none => .ok (id, t.setRole place.parent place.role (.one id))
    | some index => .ok (id, t.changeList place.parent place.role (·.set index id))

def splice (t : Tree) (old : NodeId) (news : List Draft) : Except Fault (List NodeId × Tree) :=
  match t.placeInList old with
  | .error fault => .error fault
  | .ok (parent, role, index) =>
    let (ids, t) := plantAll (t.detach old) parent news
    .ok (ids, t.changeList parent role fun list => list.take index ++ ids ++ list.drop (index + 1))

def remove (t : Tree) (id : NodeId) : Except Fault Tree :=
  match t.place id with
  | .error fault => .error fault
  | .ok place =>
    match place.index with
    | none => .ok ((t.setRole place.parent place.role .empty).detach id)
    | some index => .ok ((t.changeList place.parent place.role (·.eraseIdx index)).detach id)

def insertAt (t : Tree) (parent : NodeId) (role : Role) (index : Nat) (new : Draft) :
    NodeId × Tree :=
  let (id, t) := plant t (some parent) new
  (id, t.changeList parent role fun list => list.take index ++ id :: list.drop index)

def insertBefore (t : Tree) (anchor : NodeId) (new : Draft) : Except Fault (NodeId × Tree) :=
  match t.placeInList anchor with
  | .error fault => .error fault
  | .ok (parent, role, index) => .ok (t.insertAt parent role index new)

def insertAfter (t : Tree) (anchor : NodeId) (new : Draft) : Except Fault (NodeId × Tree) :=
  match t.placeInList anchor with
  | .error fault => .error fault
  | .ok (parent, role, index) => .ok (t.insertAt parent role (index + 1) new)

/-- Fills a list anew; its former elements may be among the new ones. -/
def refill (t : Tree) (parent : NodeId) (role : Role) (news : List Draft) :
    Except Fault (List NodeId × Tree) :=
  if ((t.node parent).kids.any fun entry => entry.1 == role) then
    match (t.node parent).kid role with
    | .many prior =>
      let (ids, t) := plantAll (t.detachAll prior) parent news
      .ok (ids, t.setRole parent role (.many ids))
    | _ => .error .mistyped
  else .error .unfit

def put (t : Tree) (parent : NodeId) (role : Role) (new : Option Draft) : Except Fault Tree :=
  if ((t.node parent).kids.any fun entry => entry.1 == role) then
    match (t.node parent).kid role with
    | .many _ => .error .misplaced
    | prior =>
      let t := t.detachAll prior.toList
      match new with
      | none => .ok (t.setRole parent role .empty)
      | some draft =>
        let (id, t) := plant t (some parent) draft
        .ok (t.setRole parent role (.one id))
  else .error .misplaced

end Tree

end UnitySharp
