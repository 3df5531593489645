import UnitySharp.Type.Spelling

/-!
# Faults of documents

Why a document could not be read.  Most faults have a wording of their own; the last six arise where
a value has not even the outline that reading it takes for granted, or refers to a node that does
not exist.
-/

namespace UnitySharp

inductive DocumentFault where
  | spelling (why : SpellingFault) (spelling : String)
  | unknownTypeKind (name : String) (kind : Json)
  | badPosition (value : Json)
  | symbolKind (key : String) (value : Json)
  | symbolMalformed (key : String)
  | notANode (value : Json)
  | danglingSymbol (key : String)
  | undeclarable (kind : Json) (position : Option Position)
  | namelessType (position : Option Position)
  | malformedNode (kind : String) (position : Option Position)
  | noModule
  | notAModule (kind : String)
  | unfit
  | mistyped
  | missingField
  | notAPair
  | noSuchNode
  | overflow

def SpellingFault.message (spelling : String) : SpellingFault → String
  | .nonsense => "Cannot make sense of type " ++ shownText spelling
  | .trailing => "Trailing junk in type " ++ shownText spelling
  | .nameExpected => "Expected a type name in " ++ shownText spelling
  | .unknown name => "Unknown type " ++ shownText name ++ " in " ++ shownText spelling
  | .openArguments => "Unbalanced generic arguments in " ++ shownText spelling
  | .openBrackets => "Unbalanced array brackets in " ++ shownText spelling

def DocumentFault.message? : DocumentFault → Option String
  | .spelling why spelled => some (why.message spelled)
  | .unknownTypeKind name kind =>
    some ("Type " ++ shownText name ++ " has unknown kind " ++ kind.shown)
  | .badPosition value => some ("Bad position " ++ value.shown)
  | .symbolKind key value => some ("Symbol " ++ key ++ " has no proper kind: " ++ value.shown)
  | .symbolMalformed key => some ("Symbol " ++ key ++ " is malformed")
  | .notANode value => some ("Expected a node, got " ++ value.shown)
  | .danglingSymbol key => some ("Dangling symbol id " ++ key)
  | .undeclarable kind position =>
    some ("Cannot declare a " ++ kind.shown ++ " at " ++ placeText position)
  | .namelessType position => some ("TypeRef at " ++ placeText position ++ " names no type")
  | .malformedNode kind position => some ("Malformed " ++ kind ++ " node at " ++ placeText position)
  | .noModule => some "A document needs a module."
  | .notAModule kind => some ("The top of the tree must be a Module, not " ++ kind ++ ".")
  | .unfit => none
  | .mistyped => none
  | .missingField => none
  | .notAPair => none
  | .noSuchNode => none
  | .overflow => none

end UnitySharp
