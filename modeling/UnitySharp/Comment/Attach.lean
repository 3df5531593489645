import UnitySharp.Code.Printer
import UnitySharp.Pass.Basic

/-!
# Attaching comments

Each comment of the source text is given a node to be written with.  The nodes met in source order
and the ends of methods and of the module are events.  A comment picks the closest node on its
line.  It is settled when a node on a later line is met, or its method or the module ends: it goes
to its pick, else above the node that settles it, else behind the last node met.
-/

namespace UnitySharp

inductive AttachEvent where
  | met (id : NodeId) (position : Position)
  | methodEnd (close : Option Position)
  | moduleEnd
deriving Repr

/-- The comments in order; those that tie stay as they stand. -/
def Comment.sorted (le : Comment → Comment → Bool) (comments : List Comment) : List Comment :=
  comments.foldr
    (fun c later => later.takeWhile (fun d => !le c d) ++ c :: later.dropWhile fun d => !le c d) []

structure Attachment where
  pending : List Comment
  settled : List Comment
  last : Option (NodeId × Position)

namespace Tree

/-- A node is met if it has a place in the source. -/
def metEvent (t : Tree) (id : NodeId) : List AttachEvent :=
  match t.position id with
  | some position => [.met id position]
  | none => []

def attachEventsWithin (t : Tree) : Nat → NodeId → List AttachEvent
  | 0, _ => []
  | depth + 1, id =>
    let inner :=
      ((t.children id).filter fun child => t.parent child == some id).flatMap
        (t.attachEventsWithin depth)
    match t.shape id with
    | .module _ _ _ => inner ++ [.moduleEnd]
    | .method head | .constructor head => t.metEvent id ++ inner ++ [.methodEnd head.close]
    | .block => inner
    | _ => t.metEvent id ++ inner

def attachEvents (t : Tree) : List AttachEvent :=
  t.attachEventsWithin (t.size + 1) t.root

def tokenLength (t : Tree) (id : NodeId) : Except Fault Nat :=
  if t.kind id = .returnStatement then .ok "return".length
  else (t.render id).map fun text => (trimmed (text.toList.takeWhile (· != '\n'))).length

def tokenEnd (t : Tree) (id : NodeId) (position : Position) : Except Fault Int :=
  (t.tokenLength id).map fun length => position.column + length

def leavesOnLine (t : Tree) (line : Int) (id : NodeId) : List (NodeId × Position) :=
  (t.walk id).filterMap fun leaf =>
    match t.position leaf with
    | some position =>
      if position.line = line ∧
        (t.children leaf).isEmpty = true then some (leaf, position) else none
    | none => none

/-- The column just past a node on its own line, going by the leaves beneath it. -/
def sourceEnd (t : Tree) (id : NodeId) (position : Position) : Except Fault Int := do
  let ends ← (t.leavesOnLine position.line id).mapM fun (leaf, place) => t.tokenEnd leaf place
  match ends with
  | [] => t.tokenEnd id position
  | first :: rest => .ok (rest.foldl max first)

end Tree

namespace Comment

/-- The side of a node on which a comment on its line stands, with the distance between them. -/
def besides (t : Tree) (comment : Comment) (id : NodeId) (position : Position) :
    Except Fault (Anchor × Int) :=
  if comment.position.column < position.column then
    .ok (.left, max 0 (position.column - (comment.position.column + comment.text.length)))
  else
    (t.sourceEnd id position).map fun past => (.right, max 0 (comment.position.column - past))

/-- The comment with a node on its line taken into account: a later node is picked only if it is
closer. -/
def consider (t : Tree) (comment : Comment) (id : NodeId) (position : Position) :
    Except Fault Comment :=
  (comment.besides t id position).map fun (anchor, distance) =>
    if comment.owner.isNone || distance < comment.distance then
      { comment with owner := some id, anchor, distance }
    else comment

/-- The comment with an owner, one it has picked or else the one given. -/
def settledOn (comment : Comment) (id : NodeId) (anchor : Anchor) : Comment :=
  if comment.owner.isNone then { comment with owner := some id, anchor } else comment

end Comment

namespace Attachment

/-- A node goes through the pending comments in their order: one on an earlier line is settled, one
on the line of the node takes the node into account, and the first one on a later line is where it
stops.  What is settled comes first, then what is left pending. -/
def sweep (t : Tree) (id : NodeId) (position : Position) :
    List Comment → Except Fault (List Comment × List Comment)
  | [] => .ok ([], [])
  | comment :: rest =>
    if comment.position.line < position.line then do
      let (settled, pending) ← sweep t id position rest
      .ok (comment.settledOn id .above :: settled, pending)
    else if comment.position.line = position.line then do
      let considered ← comment.consider t id position
      let (settled, pending) ← sweep t id position rest
      .ok (settled, considered :: pending)
    else .ok ([], comment :: rest)

/-- What the end of a scope does to a pending comment on one of its lines. -/
def atEnd (last : Option (NodeId × Position)) (through : Option Int) (comment : Comment) :
    Sum Comment Comment :=
  if through.any fun line => line < comment.position.line then .inr comment
  else
    match comment.owner, last with
    | some _, _ => .inl comment
    | none, some (id, _) => .inl (comment.settledOn id .right)
    | none, none => .inr comment

/-- Settles comments up to a line, or all of them. -/
def flush (a : Attachment) (through : Option Int) : Attachment :=
  let sides := a.pending.map (atEnd a.last through)
  { a with
    pending := sides.filterMap Sum.getRight?
    settled := a.settled ++ sides.filterMap Sum.getLeft? }

def step (t : Tree) (a : Attachment) : AttachEvent → Except Fault Attachment
  | .met id position => do
    let (settled, pending) ← sweep t id position a.pending
    .ok { pending, settled := a.settled ++ settled, last := some (id, position) }
  | .methodEnd close =>
    match close, a.last with
    | some close, _ => .ok (a.flush (some close.line))
    | none, some (_, position) => .ok (a.flush (some position.line))
    | none, none => .ok a
  | .moduleEnd => .ok (a.flush none)

def ofComments (comments : List Comment) : Attachment :=
  { pending := Comment.sorted (fun a b => !b.position.before a.position) comments
    settled := []
    last := none }

def comments (a : Attachment) : List Comment :=
  Comment.sorted (fun a b => a.index ≤ b.index) (a.settled ++ a.pending)

end Attachment

namespace Tree

def giveComment (t : Tree) (comment : Comment) : Tree :=
  match comment.owner with
  | some id => t.update id fun node => { node with comments := node.comments ++ [comment] }
  | none => t

end Tree

namespace Pass

/-- Takes an event into account, and says at the end of the module how many comments are left
over. -/
def attachStep (a : Attachment) (event : AttachEvent) : Pass Attachment := do
  let t ← tree
  match a.step t event with
  | .error fault => throw fault
  | .ok next =>
    match event with
    | .moduleEnd =>
      if !next.pending.isEmpty then
        say 3 (toString next.pending.length ++ " comments left without a home in " ++ t.path.plain)
    | _ => pure ()
    return next

def attach (comments : List Comment) : Pass (List Comment) := do
  let a ← (← tree).attachEvents.foldlM attachStep (.ofComments comments)
  change fun t => a.settled.foldl Tree.giveComment t
  return a.comments

end Pass

end UnitySharp
