import UnitySharp.Code.Precedence
import UnitySharp.Code.Spelling
import UnitySharp.Code.Writer
import UnitySharp.Tree.Basic

/-!
# Printing a tree as C#

A node is turned into marks, its comments before its own.  Statements and declarations end their own
lines; expressions never do, except that the body of a closure is a block like any other.  Whether a
return ends an iterator depends on the method around it, so that is handed down.
-/

namespace UnitySharp

abbrev Printed := Except Fault (List Mark)

namespace Printer

abbrev Emit := NodeId → Printed

def say (s : String) : List Mark :=
  [.text s]

def textOf (name : Name) : Except Fault String :=
  name.asText .mistyped

def child (emit : Emit) (occupants : Occupants NodeId) : Printed :=
  match occupants with
  | .one id => emit id
  | _ => .error .unfit

def sequence (emit : Emit) : List NodeId → Printed
  | [] => .ok []
  | id :: rest => do
    let marks ← emit id
    let later ← sequence emit rest
    .ok (marks ++ later)

def commaSeparated (emit : Emit) : List NodeId → Printed
  | [] => .ok []
  | [id] => emit id
  | id :: rest => do
    let marks ← emit id
    let later ← commaSeparated emit rest
    .ok (marks ++ say ", " ++ later)

def strength (t : Tree) : Occupants NodeId → Except Fault Nat
  | .one id => (t.shape id).precedence
  | _ => .ok Precedence.primary

def operand (t : Tree) (emit : Emit) (occupants : Occupants NodeId) (isLoose : Nat → Bool) :
    Printed := do
  let strength ← strength t occupants
  let marks ← child emit occupants
  .ok (if isLoose strength then say "(" ++ marks ++ say ")" else marks)

def attributes (emit : Emit) : List NodeId → Printed
  | [] => .ok []
  | id :: rest => do
    let marks ← emit id
    let later ← attributes emit rest
    .ok (say "[" ++ marks ++ say "]" ++ [.line] ++ later)

def modifiers : List Name → Printed
  | [] => .ok []
  | name :: rest => do
    let s ← textOf name
    let later ← modifiers rest
    .ok (say (s ++ " ") ++ later)

def braces (inner : List Mark) : List Mark :=
  say "\x7b" ++ [.line, .indent] ++ inner ++ [.dedent] ++ say "\x7d"

/-- The body of a statement: a block as it is, anything else one level in. -/
def body (t : Tree) (emit : Emit) (occupants : Occupants NodeId) : Printed :=
  match occupants with
  | .one id => do
    let marks ← emit id
    .ok (if t.kind id == .block then marks else [.indent] ++ marks ++ [.dedent])
  | _ => .error .unfit

def signature (emit : Emit) (node : Node) (head : MethodHead) (name : Name) (returns : Bool) :
    Printed := do
  let attributeMarks ← attributes emit (node.kidList .attributes)
  let modifierMarks ← modifiers head.modifiers
  let returnMarks ←
    if !returns then .ok []
    else
      match node.kid .returnType with
      | .empty => .ok (say "void" ++ say " ")
      | other => do
        let marks ← child emit other
        .ok (marks ++ say " ")
  let s ← textOf name
  let parameterMarks ← commaSeparated emit (node.kidList .parameters)
  .ok (attributeMarks ++ modifierMarks ++ returnMarks ++ say (s ++ "(") ++ parameterMarks ++
    say ")" ++ [.line])

def isIterator (t : Tree) (node : Node) : Except Fault Bool :=
  match node.kid .returnType with
  | .empty => .ok false
  | .one id =>
    match (t.node id).type? with
    | some type => .ok (type == some Ty.enumerator)
    | none => .error .unfit
  | .many _ => .error .unfit

def declarator (emit : Emit) (node : Node) : Printed := do
  let typeMarks ←
    match node.kid .typeRef with
    | .empty =>
      match node.shape with
      | .declaration _ _ | .field _ _ _ =>
        .ok (say (if (node.kid .initializer).isEmpty then "object" else "var"))
      | _ => .error .unfit
    | other => child emit other
  match node.shape with
  | .declaration name _ | .field name _ _ | .parameter name _ _ => do
    let s ← textOf name
    .ok (typeMarks ++ say (" " ++ s))
  | _ => .error .unfit

def initializer (emit : Emit) (node : Node) : Printed :=
  match node.kid .initializer with
  | .empty => .ok []
  | other => do
    let marks ← child emit other
    .ok (say " = " ++ marks)

/-- A jump or its target.  A name that is no identifier is only mentioned in a comment. -/
def jumpTarget (node : Node) (name : Name) (legal : String → List Mark) : Printed := do
  let s ← textOf name
  if isIdentifier s then .ok (legal s)
  else
    let kind := node.shape.kind.word
    .ok
      ([.unsupported
          { kind := kind
            description := "Label " ++ shownText s ++ " is not a legal identifier"
            position := node.position }] ++
        say ("/* " ++ String.ofList (kind.toList.map Char.toLower) ++ " " ++ s ++ " */") ++ [.line])

def isLastInBlock (t : Tree) (id : NodeId) : Bool :=
  match t.parent id with
  | none => false
  | some up => t.kind up == .block && ((t.node up).kidList .statements).getLast? == some id

/-- A node of a kind that is not known: a comment in its place, and a line end where nothing else
will end the line. -/
def unknownNode (t : Tree) (id : NodeId) (kind text : Name) : Printed := do
  let description ←
    if text.toJson.truthy then textOf text else .ok NodeKind.unknown.word
  let endsLine :=
    match t.parent id with
    | none => false
    | some up =>
      match t.kind up with
      | .block | .typeDef | .module => true
      | .switchSection => ((t.node up).kidList .body).contains id
      | _ => false
  .ok
    ([.unsupported
        { kind := kind
          description := "Node type not supported yet: " ++ description
          position := (t.node id).position }] ++
      say ("/* " ++ kind.plain ++ " */") ++ if endsLine then [.line] else [])

def moduleMembers (emit : Emit) (separated : Bool) : List NodeId → Printed
  | [] => .ok []
  | id :: rest => do
    let marks ← emit id
    let later ← moduleMembers emit true rest
    .ok ((if separated then [.line] else []) ++ marks ++ later)

def enumMembers (emit : Emit) : List NodeId → Printed
  | [] => .ok []
  | [id] => do
    let marks ← emit id
    .ok (marks ++ [.line])
  | id :: rest => do
    let marks ← emit id
    let later ← enumMembers emit rest
    .ok (marks ++ say "," ++ [.line] ++ later)

/-- The members of any other type; methods after the first member are set off by an empty line. -/
def typeMembers (t : Tree) (emit : Emit) (first : Bool) : List NodeId → Printed
  | [] => .ok []
  | id :: rest => do
    let marks ← emit id
    let later ← typeMembers t emit false rest
    .ok ((if !first && (t.kind id).isMethod then [.line] else []) ++ marks ++ later)

def caseLabels (emit : Emit) : List NodeId → Printed
  | [] => .ok []
  | id :: rest => do
    let marks ← emit id
    let later ← caseLabels emit rest
    .ok (say "case " ++ marks ++ say ":" ++ [.line] ++ later)

/-- The only statement of an else branch that goes on the same line: an if in a block of its own
that carries no comments. -/
def elseIf? (t : Tree) (branch : NodeId) : Option NodeId :=
  let node := t.node branch
  match node.shape.kind, node.kidList .statements with
  | .block, [only] => if t.kind only == .ifStatement && node.comments.isEmpty then some
      only else none
  | _, _ => none

def elseBranch (t : Tree) (emit : Emit) (occupants : Occupants NodeId) : Printed :=
  match occupants with
  | .empty => .ok []
  | .one id =>
    match elseIf? t id with
    | some only => do
      let marks ← emit only
      .ok (say "else" ++ say " " ++ marks)
    | none => do
      let marks ← body t emit occupants
      .ok (say "else" ++ [.line] ++ marks)
  | .many _ => .error .unfit

def binaryMarks (t : Tree) (emit : Emit) (node : Node) (op : Name) : Printed := do
  let mine ← node.shape.precedence
  if mine = Precedence.assignment then
    let left ← child emit (node.kid .left)
    let right ← operand t emit (node.kid .right) (· < Precedence.assignment)
    .ok (left ++ say (" " ++ op.plain ++ " ") ++ right)
  else
    let left ← operand t emit (node.kid .left) (· < mine)
    let token ← operatorToken op
    let right ← operand t emit (node.kid .right) (· ≤ mine)
    .ok (left ++ say (" " ++ token.plain ++ " ") ++ right)

def isNestedUnary (t : Tree) : Occupants NodeId → Bool
  | .one id => t.kind id == .unary
  | _ => false

def unaryMarks (t : Tree) (emit : Emit) (node : Node) (op : Name) (postfixed : Bool) : Printed := do
  let token ← operatorToken op
  let kid := node.kid .operand
  if postfixed then
    let marks ← operand t emit kid (· < Precedence.unary)
    .ok (marks ++ [.name token])
  else
    let marks ← operand t emit kid fun strength =>
      strength < Precedence.unary || isNestedUnary t kid
    .ok (.name token :: marks)

def isConstruction (t : Tree) (node : Node) : Bool :=
  match node.kid .target with
  | .one id =>
    match (t.shape id).symbol? with
    | some callee => callee.kind == .constructor
    | none => false
  | _ => false

def referenceMarks (t : Tree) (name : Name) (symbol : Option Symbol) : Printed := do
  if symbol.any fun symbol => symbol.kind == .type || symbol.kind == .constructor then
    let key ← name.key?
    .ok [.name ((key.map fun s => Name.text (renamedTo t.renamed s)).getD name)]
  else .ok [.name name]

/-- The marks of a node without its comments.  `emit` prints a child in the surroundings of the
node, and `emitIn` in other surroundings. -/
def nodeMarks (t : Tree) (emitIn : Bool → Emit) (iterator : Bool) (id : NodeId) : Printed :=
  let node := t.node id
  let emit := emitIn iterator
  let tight (role : Role) : Printed := operand t emit (node.kid role) (· < Precedence.primary)
  match node.shape with
  | .unknown kind text _ => unknownNode t id kind text
  | .module _ imports _ => do
    let using_ := imports.flatMap fun name => say ("using " ++ name.plain ++ ";") ++ [.line]
    let members ← moduleMembers emit (!imports.isEmpty) (node.kidList .members)
    .ok (using_ ++ members)
  | .attribute name => do
    let s ← name.asText .unfit
    let arguments := node.kidList .arguments
    if arguments.isEmpty then .ok (say (attributeText s))
    else
      let marks ← commaSeparated emit arguments
      .ok (say (attributeText s) ++ say "(" ++ marks ++ say ")")
  | .typeRef type => .ok (say (typeCode t.renamed type))
  | .typeDef name kind modifierNames _ _ => do
    let attributeMarks ← attributes emit (node.kidList .attributes)
    let modifierMarks ← modifiers modifierNames
    let bases := node.kidList .bases
    let baseMarks ←
      if bases.isEmpty then .ok []
      else do
        let marks ← commaSeparated emit bases
        .ok (say " : " ++ marks)
    let members := node.kidList .members
    let memberMarks ←
      if kind = .enumType then enumMembers emit members else typeMembers t emit true members
    .ok (attributeMarks ++ modifierMarks ++ say (kind.word ++ " " ++ name.plain) ++ baseMarks ++
      [.line] ++ braces memberMarks ++ [.line])
  | .enumMember name => do
    let initial ← initializer emit node
    .ok (.name name :: initial)
  | .field name modifierNames _ => do
    let attributeMarks ← attributes emit (node.kidList .attributes)
    let modifierMarks ← modifiers modifierNames
    let typeMarks ← child emit (node.kid .typeRef)
    let s ← textOf name
    let initial ← initializer emit node
    .ok (attributeMarks ++ modifierMarks ++ typeMarks ++ say (" " ++ s) ++ initial ++ say ";" ++
      [.line])
  | .parameter name byRef _ => do
    let typeMarks ←
      match node.kid .typeRef with
      | .empty => .ok (say "object")
      | other => child emit other
    let s ← textOf name
    .ok ((if byRef.truthy then say "ref " else []) ++ typeMarks ++ say (" " ++ s))
  | .method head => do
    let iterates ← isIterator t node
    let signatureMarks ← signature (emitIn iterates) node head head.name true
    let bodyMarks ← child (emitIn iterates) (node.kid .body)
    .ok (signatureMarks ++ bodyMarks)
  | .constructor head => do
    let name :=
      match t.ancestor? (· == .typeDef) id with
      | some owner => ((t.shape owner).name?).getD head.name
      | none => head.name
    let signatureMarks ← signature (emitIn false) node head name false
    let bodyMarks ← child (emitIn false) (node.kid .body)
    .ok (signatureMarks ++ bodyMarks)
  | .block => do
    let inner ← sequence emit (node.kidList .statements)
    .ok (braces inner ++ [.line])
  | .expressionStatement => do
    let marks ← child emit (node.kid .expression)
    .ok (marks ++ say ";" ++ [.line])
  | .declaration _ _ => do
    let marks ← declarator emit node
    let initial ← initializer emit node
    .ok (marks ++ initial ++ say ";" ++ [.line])
  | .ifStatement => do
    let condition ← child emit (node.kid .condition)
    let thenMarks ← body t emit (node.kid .thenBranch)
    let elseMarks ← elseBranch t emit (node.kid .elseBranch)
    .ok (say "if (" ++ condition ++ say ")" ++ [.line] ++ thenMarks ++ elseMarks)
  | .whileLoop => do
    let condition ← child emit (node.kid .condition)
    let bodyMarks ← body t emit (node.kid .body)
    .ok (say "while (" ++ condition ++ say ")" ++ [.line] ++ bodyMarks)
  | .forEach => do
    let declared ←
      match node.kid .declaration with
      | .one declaration => do
        let marks ← declarator emit (t.node declaration)
        .ok ((t.node declaration).comments.map Mark.comment ++ marks)
      | _ => .error .unfit
    let iterated ← child emit (node.kid .iterator)
    let bodyMarks ← body t emit (node.kid .body)
    .ok (say "foreach (" ++ declared ++ say " in " ++ iterated ++ say ")" ++ [.line] ++ bodyMarks)
  | .goto label => jumpTarget node label fun s => say ("goto " ++ s ++ ";") ++ [.line]
  | .label name =>
    jumpTarget node name fun s => say (s ++ if isLastInBlock t id then ": ;" else ":") ++ [.line]
  | .returnStatement =>
    if iterator then .ok (say "yield break;" ++ [.line])
    else
      match node.kid .expression with
      | .empty => .ok (say "return;" ++ [.line])
      | other => do
        let marks ← child emit other
        .ok (say "return " ++ marks ++ say ";" ++ [.line])
  | .breakStatement => .ok (say "break;" ++ [.line])
  | .continueStatement => .ok (say "continue;" ++ [.line])
  | .yieldStatement => do
    let marks ←
      match node.kid .expression with
      | .empty => .ok (say "null")
      | other => child emit other
    .ok (say "yield return " ++ marks ++ say ";" ++ [.line])
  | .switchStatement => do
    let subject ← child emit (node.kid .subject)
    let sections ← sequence emit (node.kidList .sections)
    .ok (say "switch (" ++ subject ++ say ")" ++ [.line] ++ braces sections ++ [.line])
  | .switchSection => do
    let labels := node.kidList .labels
    let labelMarks ← caseLabels emit labels
    let inner ← sequence emit (node.kidList .body)
    .ok ((if labels.isEmpty then say "default:" ++ [.line] else []) ++ labelMarks ++ [.indent] ++
      inner ++ [.dedent])
  | .binary op _ => binaryMarks t emit node op
  | .unary op postfixed _ => unaryMarks t emit node op postfixed.truthy
  | .invocation _ => do
    let target ← tight .target
    let arguments ← commaSeparated emit (node.kidList .arguments)
    .ok ((if isConstruction t node then say "new " else []) ++ target ++ say "(" ++ arguments ++
      say ")")
  | .indexer _ => do
    let target ← tight .target
    let indices ← commaSeparated emit (node.kidList .indices)
    .ok (target ++ say "[" ++ indices ++ say "]")
  | .reference name symbol _ => referenceMarks t name symbol
  | .memberAccess name _ _ => do
    let target ← tight .target
    let s ← textOf name
    .ok (target ++ say ("." ++ s))
  | .literal value type =>
    match literalText? value type with
    | some s => .ok (say s)
    | none => .error .mistyped
  | .cast _ => do
    let typeMarks ← child emit (node.kid .typeRef)
    let marks ← operand t emit (node.kid .operand) (· ≤ Precedence.unary)
    .ok (say "(" ++ typeMarks ++ say ") " ++ marks)
  | .tryCast _ => do
    let marks ← operand t emit (node.kid .operand) (· < Precedence.relational)
    let typeMarks ← child emit (node.kid .typeRef)
    .ok (marks ++ say " as " ++ typeMarks)
  | .typeOf _ => do
    let typeMarks ← child emit (node.kid .typeRef)
    .ok (say "typeof(" ++ typeMarks ++ say ")")
  | .conditional _ => do
    let condition ← operand t emit (node.kid .condition) (· ≤ Precedence.conditional)
    let yes ← operand t emit (node.kid .yes) (· < Precedence.conditional)
    let no ← operand t emit (node.kid .no) (· < Precedence.conditional)
    .ok (condition ++ say " ? " ++ yes ++ say " : " ++ no)
  | .selfRef _ => .ok (say "this")
  | .superRef _ => .ok (say "base")
  | .genericRef _ => do
    let target ← child emit (node.kid .target)
    let arguments ← commaSeparated emit (node.kidList .arguments)
    .ok (target ++ say "<" ++ arguments ++ say ">")
  | .closure _ => do
    let parameters ← commaSeparated (emitIn false) (node.kidList .parameters)
    match node.kid .body with
    | .one block =>
      if t.kind block == .block then
        let inner ← sequence (emitIn false) ((t.node block).kidList .statements)
        .ok (say "(" ++ parameters ++ say ") =>" ++ [.line] ++ braces inner)
      else .error .unfit
    | _ => .error .unfit

/-- The comments that are written with a node; one of an unknown kind keeps its own to itself. -/
def commentMarks (node : Node) : List Mark :=
  match node.shape with
  | .unknown _ _ _ => []
  | _ => node.comments.map Mark.comment

def marksWithin (t : Tree) : Nat → Bool → NodeId → Printed
  | 0, _, _ => .error .exhausted
  | depth + 1, iterator, id => do
    let marks ← nodeMarks t (fun inside child => marksWithin t depth inside child) iterator id
    .ok (commentMarks (t.node id) ++ marks)

end Printer

namespace Tree

def marks (t : Tree) (id : NodeId) : Printed :=
  Printer.marksWithin t (t.size + 1) false id

def withoutComments (marks : List Mark) : List Mark :=
  marks.filter fun mark =>
    match mark with
    | .comment _ => false
    | _ => true

def layOut (marks : List Mark) : Except Fault Writer :=
  match Writer.initial.putAll? marks with
  | some w => if w.isSpoiled then .error .mistyped else .ok w.finish
  | none => .error .misplaced

def render (t : Tree) (id : NodeId) : Except Fault String := do
  let marks ← t.marks id
  let w ← layOut (withoutComments marks)
  .ok w.text

def unsupportedIn (marks : List Mark) : List Unsupported :=
  marks.filterMap fun mark =>
    match mark with
    | .unsupported record => some record
    | _ => none

end Tree

end UnitySharp
