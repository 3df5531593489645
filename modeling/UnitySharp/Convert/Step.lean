import UnitySharp.Closure.Inline
import UnitySharp.Pass.Calls
import UnitySharp.Pass.Casts
import UnitySharp.Pass.FunctionReferences
import UnitySharp.Pass.Members
import UnitySharp.Pass.Words
import UnitySharp.Switch.OnlyDefault
import UnitySharp.Switch.Rebuild
import UnitySharp.ValueType.Assignment

/-!
# The steps of a conversion

Each step is a pass over the whole tree.  Later steps rely on the form that earlier ones leave, so a
conversion takes them in a fixed order.
-/

namespace UnitySharp

inductive Step where
  | restoreOperators
  | collapseSwitches
  | rebuildSwitches
  | mergeEntryPoints
  | initializeValueTypes
  | assignValueTypes
  | inlineCaptures
  | invertFieldGuards
  | fixFunctionReferences
  | makeLookupsGeneric
  | takeTypesAsValues
  | restoreIndexers
  | capitalizeArrayMembers
  | qualifyStaticMembers
  | castValues
  | castEnums
  | declareIterators
  | testForTruth
  | escapeReservedWords
  | widenTypeAccess
deriving DecidableEq, Repr

namespace Step

def word : Step → String
  | .restoreOperators => "OperatorMethodsToOperators"
  | .collapseSwitches => "FixSwitchWithOnlyDefault"
  | .rebuildSwitches => "ReconstructSwitches"
  | .mergeEntryPoints => "MergeMainIntoStart"
  | .initializeValueTypes => "ExpandValueTypeInitialization"
  | .assignValueTypes => "ExpandValueTypeMemberAssignments"
  | .inlineCaptures => "FixClosures"
  | .invertFieldGuards => "FixConstructorFieldInitialization"
  | .fixFunctionReferences => "FixFunctionReferences"
  | .makeLookupsGeneric => "KnownComponentCalls"
  | .takeTypesAsValues => "InjectTypeOf"
  | .restoreIndexers => "RestoreIndexers"
  | .capitalizeArrayMembers => "CapitalizeArrayMembers"
  | .qualifyStaticMembers => "StaticMembersThroughTypes"
  | .castValues => "InjectCasts"
  | .castEnums => "ApplyEnumConversions"
  | .declareIterators => "InferIteratorReturnTypes"
  | .testForTruth => "PromoteImplicitBooleans"
  | .escapeReservedWords => "EscapeReservedWords"
  | .widenTypeAccess => "FixTypeAccessibility"

def all : List Step :=
  [.restoreOperators, .collapseSwitches, .rebuildSwitches, .mergeEntryPoints, .initializeValueTypes,
    .assignValueTypes, .inlineCaptures, .invertFieldGuards, .fixFunctionReferences,
      .makeLookupsGeneric,
    .takeTypesAsValues, .restoreIndexers, .capitalizeArrayMembers, .qualifyStaticMembers,
      .castValues,
    .castEnums, .declareIterators, .testForTruth, .escapeReservedWords, .widenTypeAccess]

def ofWord? (word : String) : Option Step :=
  all.find? fun step => step.word == word

def run : Step → Pass Unit
  | .restoreOperators => Pass.everywhere OperatorCalls.rule
  | .collapseSwitches => Pass.everywhere Switch.collapseRule
  | .rebuildSwitches => Pass.everywhere Switch.rebuildRule
  | .mergeEntryPoints => Pass.everywhere EntryPoint.rule
  | .initializeValueTypes => Pass.everywhere ValueType.initializationRule
  | .assignValueTypes => Pass.everywhere ValueType.assignmentRule
  | .inlineCaptures => Pass.everywhere Closure.inlineRule
  | .invertFieldGuards => Pass.everywhere FieldGuards.rule
  | .fixFunctionReferences => Pass.everywhere FunctionReferences.rule
  | .makeLookupsGeneric => Pass.everywhere ComponentCalls.rule
  | .takeTypesAsValues => Pass.everywhere TypeValues.rule
  | .restoreIndexers => Pass.everywhere Indexers.rule
  | .capitalizeArrayMembers => Pass.everywhere ArrayMembers.rule
  | .qualifyStaticMembers => Pass.everywhere StaticMembers.rule
  | .castValues => Pass.everywhere Casts.valueRule
  | .castEnums => Pass.everywhere Casts.enumRule
  | .declareIterators => Pass.everywhere Iterators.rule
  | .testForTruth => Pass.everywhere TruthTests.rule
  | .escapeReservedWords => ReservedWords.pass
  | .widenTypeAccess => Pass.everywhere TypeAccess.rule

end Step

end UnitySharp
