import UnitySharp.Closure.Capture
import UnitySharp.Pass.Basic

/-!
# Doing without capture records

C# captures variables by itself, so a capture record goes away: what could be named directly is
named directly, and every other captured variable becomes a local.  The statements of the block that
created the context move to where the block stood.
-/

namespace UnitySharp.Closure

abbrev CaptureTable := List (Name × Draft)

namespace CaptureTable

def find? (table : CaptureTable) (name : Name) : Except Fault (Option Draft) :=
  name.key?.map fun _ =>
    (List.find? (fun entry => entry.1.toJson.sameKey name.toJson) table).map (·.2)

def set (table : CaptureTable) (name : Name) (draft : Draft) : Except Fault CaptureTable :=
  name.key?.map fun _ =>
    (name, draft) :: List.filter (fun entry => !entry.1.toJson.sameKey name.toJson) table

def names (table : CaptureTable) : Except Fault String := do
  let texts ← List.mapM (fun entry => Name.asText entry.1 .mistyped) table
  .ok (", ".intercalate (texts.mergeSort fun a b => !(b < a)))

end CaptureTable

/-- What has been gathered about a context: what stands for its variables, and the statements to put
in the place of the block that created it. -/
structure Gathered where
  table : CaptureTable
  hoisted : List Draft

def Gathered.note (gathered : Gathered) (name : Name) (draft : Draft) : Pass Gathered := do
  return { gathered with table := ← Pass.ofExcept (gathered.table.set name draft) }

def Gathered.hoist (gathered : Gathered) (statement : Draft) : Gathered :=
  { gathered with hoisted := gathered.hoisted ++ [statement] }

/-- A new local for a captured variable, of the type of its value or of the assignment. -/
def localFor (copy : Tree.CapturedCopy) (value : NodeId) : Pass (Symbol × Option Ty) := do
  let name ← Pass.ofExcept (copy.name.asText .unfit)
  let t ← Pass.tree
  let type ← Pass.ofExcept (Tree.typeOr (← Pass.typeAt value) (t.typeAt copy.assignment))
  return (← Pass.coin .localVariable (unmarkedName name) type, type)

def valueOf (copy : Tree.CapturedCopy) : Pass NodeId :=
  match copy.value with
  | some value => pure value
  | none => throw .unfit

/-- The declaration of a captured variable with the value copied into it, which is taken from its
assignment. -/
def declareWithValue (copy : Tree.CapturedCopy) (statement : NodeId) (gathered : Gathered) :
    Pass (Draft × Gathered) := do
  let value ← valueOf copy
  let (symbol, type) ← localFor copy value
  let gathered ← gathered.note copy.name (.ofSymbol symbol none)
  Pass.remove value
  return (.declaration symbol type (some (.kept value)) ((← Pass.tree).position statement),
    gathered)

def declareBare (copy : Tree.CapturedCopy) (gathered : Gathered) : Pass (Draft × Gathered) := do
  let value ← valueOf copy
  let (symbol, type) ← localFor copy value
  let gathered ← gathered.note copy.name (.ofSymbol symbol none)
  return (.declaration symbol (some (type.getD Ty.object)) none none, gathered)

def gatherInside (context : Symbol) (gathered : Gathered) (statement : NodeId) : Pass Gathered := do
  let t ← Pass.tree
  match t.capturedCopy? context statement with
  | none => return gathered.hoist (.kept statement)
  | some copy =>
    match copy.value.filter t.isAddressable with
    | some value => gathered.note copy.name (t.copy value)
    | none =>
      let (declaration, gathered) ← declareWithValue copy statement gathered
      return gathered.hoist declaration

/-- Gathers a statement elsewhere in the scope.  The first assignment to a variable declares it
where it stands beside the block; deeper down it stays an assignment, and a bare declaration is
hoisted. -/
def gatherOutside (context : Symbol) (capture : NodeId) (home : Option NodeId) (gathered : Gathered)
    (statement : NodeId) : Pass Gathered := do
  let t ← Pass.tree
  if t.parent statement == some capture then return gathered
  match t.capturedCopy? context statement with
  | none => return gathered
  | some copy =>
    if (← Pass.ofExcept (gathered.table.find? copy.name)).isSome then return gathered
    else
      match copy.value.filter t.isAddressable with
      | some value =>
        let gathered ← gathered.note copy.name (t.copy value)
        Pass.remove statement
        return gathered
      | none =>
        if t.parent statement == home then
          let (declaration, gathered) ← declareWithValue copy statement gathered
          let _ ← Pass.replace statement declaration
          return gathered
        else
          let (declaration, gathered) ← declareBare copy gathered
          return gathered.hoist declaration

/-- Puts what stands for captured variables in the place of their uses through the context. -/
def substitute (context : Symbol) (table : CaptureTable) (scope : NodeId) : Pass Unit := do
  let t ← Pass.tree
  (t.walk scope).forM fun id => do
    let t ← Pass.tree
    match t.capturedName? context id with
    | none => pure ()
    | some name =>
      match ← Pass.ofExcept (table.find? name) with
      | some draft =>
        if t.isAttached id then
          let _ ← Pass.replace id draft
      | none => pure ()

def removeDeclarations (context : Symbol) (scope : NodeId) : Pass Unit := do
  let t ← Pass.tree
  (t.walk scope).forM fun id => do
    if (← Pass.tree).declares context id then Pass.remove id

/-- Does away with the context that a block creates, and returns the statements now in its place. -/
def inline (context : Symbol) (capture : NodeId) : Pass (List NodeId) := do
  let t ← Pass.tree
  let scope := (t.ancestor? NodeKind.isMethod capture).getD t.root
  let home := t.parent capture
  let gathered ← (t.listed capture .statements).tail.foldlM (gatherInside context) ⟨[], []⟩
  let gathered ← ((← Pass.tree).walk scope).foldlM (gatherOutside context capture home) gathered
  let statements ← Pass.splice capture gathered.hoisted
  substitute context gathered.table scope
  removeDeclarations context scope
  let names ← Pass.ofExcept gathered.table.names
  Pass.say 3 ("Closure context " ++ context.name.plain ++ " carried " ++ names)
  return statements

def isMadeUp (t : Tree) (id : NodeId) (name : Name) : Except Fault Bool :=
  if (t.node id).isSynthetic then (name.asText .unfit).map isMarked else .ok false

/-- Does away with the capture records of a module and the made-up classes behind them. -/
def inlineRule : Pass.Rule := fun visit id => do
  let t ← Pass.tree
  match t.shape id with
  | .typeDef name _ _ _ _ =>
    if ← Pass.ofExcept (isMadeUp t id name) then
      Pass.remove id
      Pass.say 3 ("Dropped closure class " ++ name.plain)
    else Pass.descend visit id
  | .block =>
    let context ← match (t.listed id .statements).head? with
      | some first => Pass.ofExcept (t.contextObject? first)
      | none => pure none
    if (t.parent id).any fun parent => t.kind parent == .block then
      match context with
      | some context => (← inline context id).forM visit
      | none => Pass.descend visit id
    else Pass.descend visit id
  | _ => Pass.descend visit id

end UnitySharp.Closure
