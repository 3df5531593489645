import UnitySharp.Report.Basic
import UnitySharp.Tree.Compose
import UnitySharp.Tree.Edit
import UnitySharp.Tree.Query

/-!
# Passes

A pass changes a module's tree in place and reports as it goes.  What it has done by the time it
fails stays done.  It is given by a rule for one node, which is handed the way to visit further
nodes.
-/

namespace UnitySharp

structure Session where
  tree : Tree
  report : Report

abbrev Pass := EStateM Fault Session

namespace Pass

def tree : Pass Tree := do
  return (← get).tree

def ofExcept {α : Type} (answer : Except Fault α) : Pass α :=
  match answer with
  | .ok result => pure result
  | .error fault => throw fault

def change (f : Tree → Tree) : Pass Unit :=
  modify fun session => { session with tree := f session.tree }

/-- Changes the tree by an operation that may refuse, in which case nothing is changed. -/
def edit {α : Type} (f : Tree → Except Fault (α × Tree)) : Pass α := do
  match f (← tree) with
  | .error fault => throw fault
  | .ok (result, t) =>
    change fun _ => t
    return result

def replace (old : NodeId) (new : Draft) : Pass NodeId :=
  edit fun t => t.replace old new

def remove (id : NodeId) : Pass Unit :=
  edit fun t => (t.remove id).map fun t => ((), t)

def insertBefore (anchor : NodeId) (new : Draft) : Pass NodeId :=
  edit fun t => t.insertBefore anchor new

def splice (old : NodeId) (news : List Draft) : Pass (List NodeId) :=
  edit fun t => t.splice old news

def refill (parent : NodeId) (role : Role) (news : List Draft) : Pass (List NodeId) :=
  edit fun t => t.refill parent role news

def put (parent : NodeId) (role : Role) (new : Draft) : Pass Unit :=
  edit fun t => (t.put parent role (some new)).map fun t => ((), t)

def reshape (id : NodeId) (f : Shape → Shape) : Pass Unit :=
  change fun t => t.setShape id (f (t.shape id))

/-- Changes the name of a node by its text; a name that cannot be looked up is a fault. -/
def rename (id : NodeId) (f : String → String) : Pass Unit := do
  match ((← tree).shape id).name? with
  | some name =>
    match ← ofExcept name.key? with
    | some _ => reshape id fun shape => shape.mapName fun name => name.mapText f
    | none => pure ()
  | none => pure ()

def setType (id : NodeId) (type : Option Ty) : Pass Unit :=
  change fun t => t.setType id type

def child (id : NodeId) (role : Role) : Pass NodeId := do
  ofExcept ((← tree).child id role)

def statementsOf (block : NodeId) : Pass (List NodeId) := do
  ofExcept ((← tree).statementsOf block)

def typeAt (id : NodeId) : Pass (Option Ty) := do
  ofExcept ((← tree).typeAt id)

def typeIn (id : NodeId) (role : Role) : Pass (Option Ty) := do
  ofExcept ((← tree).typeIn id role)

def coin (kind : BindingKind) (name : Name) (type : Option Ty) : Pass Symbol := do
  let serial := (← tree).coined
  change fun t => { t with coined := serial + 1 }
  return { origin := .coined serial, kind, name, type, isStatic := false, isSynthetic := false,
           parameters := [], declaring := none }

/-- Prints a line for a reader who wants that much detail. -/
def say (level : Int) (line : String) : Pass Unit :=
  modify fun session => { session with report := session.report.info level line }

def flag (kind description : String) (position : Option Position) : Pass Unit :=
  modify fun session =>
    { session with report := session.report.addUnsupported kind description position }

def wrapInCast (expression : NodeId) (type : Ty) : Pass Unit := do
  let _ ← replace expression (.cast type (.kept expression))

/-- Visits the children of a node.  The children are listed before the first visit; one that a visit
has taken out from under the node is passed over. -/
def descend (visit : NodeId → Pass Unit) (id : NodeId) : Pass Unit := do
  ((← tree).children id).forM fun child => do
    if (← tree).parent child == some id then visit child

/-- What to do at a node, given how to visit others. -/
abbrev Rule := (NodeId → Pass Unit) → NodeId → Pass Unit

def visitWithin (rule : Rule) : Nat → NodeId → Pass Unit
  | 0, _ => throw .exhausted
  | depth + 1, id => rule (visitWithin rule depth) id

/-- Visits the whole tree by a rule.  The depth is a multiple of the number of nodes, which leaves
room for the levels that rules add on the way. -/
def everywhere (rule : Rule) : Pass Unit := do
  let t ← tree
  visitWithin rule (8 * (t.size + 1)) t.root

end Pass

end UnitySharp
