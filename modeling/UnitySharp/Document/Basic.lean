import UnitySharp.Document.Node

/-!
# Documents

A document holds one module: its tree, the types and symbols the tree refers to, the errors the
analyzer ran into, and perhaps the source text.
-/

namespace UnitySharp

structure AnalyzerError where
  message : Json
  position : Option Position

structure Document where
  tree : Tree
  errors : List AnalyzerError
  symbols : List (String × Symbol)
  types : TypeTable

/-- The symbols of a document as another reading of it would give them. -/
def Document.symbolsOfReading (document : Document) (reading : Nat) : List (String × Symbol) :=
  document.symbols.map fun entry => (entry.1, { entry.2 with origin := .listed reading entry.1 })

/-- One error of the analyzer; its place counts only if a line is given. -/
def readAnalyzerError (value : Json) : Except DocumentFault AnalyzerError :=
  match value with
  | .record fields =>
    let message := (Json.lookup "message" fields).getD (.text "?")
    match Json.lookup "line" fields with
    | none => .ok ⟨message, none⟩
    | some line =>
      match Json.lookup "column" fields with
      | none => .error .missingField
      | some column =>
        match readPosition (.list [line, column]) with
        | .ok position => .ok ⟨message, position⟩
        | .error fault => .error fault
  | _ => .error .unfit

def readAnalyzerErrors (value : Json) : Except DocumentFault (List AnalyzerError) :=
  match value.items? with
  | some items => items.mapM readAnalyzerError
  | none => .error .mistyped

def moduleRoot (path : Name) (tree : Tree) : Draft → Except DocumentFault Draft
  | .fresh (.module _ imports close) position kids =>
    .ok (.fresh (.module path imports close) position kids)
  | draft => .error (.notAModule (draft.shape tree).kind.word)

/-- Reads a document.  The given source text serves where the document does not mention one at
all. -/
def readDocument (value : Json) (source : Json) : Except DocumentFault Document :=
  match value with
  | .record fields =>
    match Json.lookup "module" fields with
    | none => .error .noModule
    | some module => do
      let path := Name.ofJson ((Json.lookup "path" fields).getD (.text "<unknown>"))
      let types ← readTypeTable ((Json.lookup "types" fields).getD (.record []))
      let symbols ← readSymbols types 0 ((Json.lookup "symbols" fields).getD (.record []))
      let reader : NodeReader := { types, symbols, tree := default, graft := fun _ => .ok none }
      let draft ← reader.read module
      let root ← moduleRoot path default draft
      let errors ← readAnalyzerErrors ((Json.lookup "errors" fields).getD (.list []))
      let source := (Json.lookup "source" fields).getD source
      .ok { tree := Tree.ofDraft root path source, errors, symbols, types }
  | _ => .error .noModule

end UnitySharp
