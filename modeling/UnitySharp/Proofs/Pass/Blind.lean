import UnitySharp.Comment.Attach
import UnitySharp.Convert.Step

/-!
# What a pass does not look at

No action out of which passes are built reads what has been printed or what issues there are.
-/

namespace UnitySharp

variable {α : Type} {id : NodeId} {visit : NodeId → Pass Unit}

/-- A report with other issues, and with something printed ahead of its own log. -/
def Report.behind (report : Report) (head : String) (issues : List Picture) : Report :=
  { report with log := head ++ report.log, issues }

def Session.behind (s : Session) (head : String) (issues : List Picture) : Session :=
  { s with report := s.report.behind head issues }

/-- How a run ends behind a log and issues. -/
def Session.endBehind {ε α : Type} (head : String) (issues : List Picture) :
    EStateM.Result ε Session α → EStateM.Result ε Session α
  | .ok result after => .ok result (after.behind head issues)
  | .error failure after => .error failure (after.behind head issues)

theorem Report.info_behind (report : Report) (level : Int) (line head : String)
    (issues : List Picture) :
    (report.behind head issues).info level line = (report.info level line).behind head issues := by
  unfold info behind
  split
  · simp only [printLine, String.append_assoc]
  · rfl

/-- An action ends in the same way whatever has been printed and whatever issues there are, and
leaves both in place. -/
class Blind {ε α : Type} (action : EStateM ε Session α) : Prop where
  run_behind : ∀ head issues s, action (s.behind head issues) = Session.endBehind head issues
    (action s)

namespace Blind

variable {ε β : Type}

instance {value : α} : Blind (pure value : EStateM ε Session α) :=
  ⟨fun _ _ _ => rfl⟩

instance {failure : ε} : Blind (throw failure : EStateM ε Session α) :=
  ⟨fun _ _ _ => rfl⟩

theorem bind {action : EStateM ε Session α} {next : α → EStateM ε Session β}
    (haction : Blind action) (hnext : ∀ result, Blind (next result)) : Blind (action >>= next) := by
  constructor
  intro head issues s
  simp only [Bind.bind, EStateM.bind, haction.run_behind]
  cases action s with
  | ok result after => exact (hnext result).run_behind head issues after
  | error failure after => rfl

instance {action : EStateM ε Session α} {next : α → EStateM ε Session β} [haction : Blind action]
    [hnext : ∀ result, Blind (next result)] : Blind (action >>= next) :=
  bind haction hnext

instance {p : Prop} [Decidable p] {yes no : EStateM ε Session α} [Blind yes] [Blind no] :
    Blind (if p then yes else no) := by
  split <;> infer_instance

theorem forM {items : List α} {action : α → EStateM ε Session Unit}
    (h : ∀ item, Blind (action item)) :
    Blind (items.forM action) := by
  induction items with
  | nil => exact inferInstanceAs (Blind (pure ()))
  | cons item rest ih => exact bind (h item) fun _ => ih

instance {items : List α} {action : α → EStateM ε Session Unit} [h : ∀ item, Blind (action item)] :
    Blind (items.forM action) :=
  forM h

theorem foldlM {items : List β} {action : α → β → EStateM ε Session α}
    (h : ∀ value item, Blind (action value item)) {start : α} :
    Blind (items.foldlM action start) := by
  induction items generalizing start with
  | nil => exact inferInstanceAs (Blind (pure start))
  | cons item rest ih => exact bind (h start item) fun _ => ih

theorem mapM {items : List α} {action : α → EStateM ε Session β} (h : ∀ item, Blind (action item)) :
    Blind (items.mapM action) := by
  induction items with
  | nil => exact inferInstanceAs (Blind (pure []))
  | cons item rest ih =>
    rw [List.mapM_cons]
    exact bind (h item) fun _ => bind ih fun _ => inferInstance

end Blind

namespace Pass

/-! ## The actions of a pass -/

variable {role : Role} {new : Draft} {news : List Draft} {type : Option Ty}

instance : Blind tree :=
  ⟨fun _ _ _ => rfl⟩

instance {answer : Except Fault α} : Blind (ofExcept answer) := by
  cases answer <;> exact ⟨fun _ _ _ => rfl⟩

instance {f : Tree → Tree} : Blind (change f) :=
  ⟨fun _ _ _ => rfl⟩

instance {f : Tree → Except Fault (α × Tree)} : Blind (edit f) := by
  refine .bind inferInstance fun t => ?_
  split <;> infer_instance

instance {level : Int} {line : String} : Blind (say level line) :=
  ⟨fun head issues s => congrArg (fun report => EStateM.Result.ok () (Session.mk s.tree report))
    (s.report.info_behind level line head issues)⟩

instance {kind description : String} {position : Option Position} :
    Blind (flag kind description position) :=
  ⟨fun _ _ _ => rfl⟩

instance : Blind (replace id new) := inferInstanceAs (Blind (edit _))

instance : Blind (remove id) := inferInstanceAs (Blind (edit _))

instance : Blind (insertBefore id new) := inferInstanceAs (Blind (edit _))

instance : Blind (splice id news) := inferInstanceAs (Blind (edit _))

instance : Blind (refill id role news) := inferInstanceAs (Blind (edit _))

instance : Blind (put id role new) := inferInstanceAs (Blind (edit _))

instance {f : Shape → Shape} : Blind (reshape id f) := inferInstanceAs (Blind (change _))

instance : Blind (setType id type) := inferInstanceAs (Blind (change _))

instance : Blind (child id role) := inferInstanceAs (Blind (tree >>= _))

instance : Blind (statementsOf id) := inferInstanceAs (Blind (tree >>= _))

instance : Blind (typeAt id) := inferInstanceAs (Blind (tree >>= _))

instance : Blind (typeIn id role) := inferInstanceAs (Blind (tree >>= _))

instance {kind : BindingKind} {name : Name} : Blind (coin kind name type) :=
  inferInstanceAs (Blind (tree >>= _))

instance {type : Ty} : Blind (wrapInCast id type) := inferInstanceAs (Blind (replace _ _ >>= _))

instance {f : String → String} : Blind (rename id f) := by
  unfold rename
  repeat' first | infer_instance | split | apply Blind.bind | intro _

instance [hvisit : ∀ id, Blind (visit id)] : Blind (descend visit id) :=
  .bind inferInstance fun _ => .forM fun _ => inferInstance

theorem everywhere_blind {rule : Rule}
    (hrule : ∀ visit : NodeId → Pass Unit, (∀ id, Blind (visit id)) → ∀ id, Blind (rule visit id)) :
    Blind (everywhere rule) := by
  refine .bind inferInstance fun t => ?_
  have hwithin : ∀ depth id, Blind (visitWithin rule depth id) := by
    intro depth
    induction depth with
    | zero => exact fun _ => inferInstanceAs (Blind (throw _))
    | succ depth ih => exact hrule _ ih
  exact hwithin _ _

end Pass

/-! ## The rules -/

open Pass

variable [hvisit : ∀ id, Blind (visit id)]

instance OperatorCalls.rule_blind : Blind (rule visit id) := by
  unfold rule restore
  repeat' first | infer_instance | split | apply Blind.bind | intro _

instance Switch.collapseRule_blind : Blind (collapseRule visit id) := by
  unfold collapseRule collapse
  repeat' first | infer_instance | split | apply Blind.bind | intro _

instance Switch.rebuildRule_blind : Blind (rebuildRule visit id) := by
  unfold rebuildRule rebuild assemble refresh chooseSubject defaultSection breakOut restoreSubject
    keepSubject section? closeBranch closed trimBody labelOver integerLabel?
  repeat'
    first
    | infer_instance
    | split
    | apply Blind.forM
    | apply Blind.mapM
    | apply Blind.bind
    | intro _

instance EntryPoint.rule_blind : Blind (rule visit id) := by
  unfold rule merge
  repeat' first | infer_instance | split | apply Blind.bind | intro _

instance ValueType.initializationRule_blind : Blind (initializationRule visit id) := by
  unfold initializationRule initializedType
  repeat' first | infer_instance | split | apply Blind.bind | intro _

instance ValueType.assignmentRule_blind : Blind (assignmentRule visit id) := by
  unfold assignmentRule expand expandStep declareTemporary renamed
  repeat' first | infer_instance | split | apply Blind.foldlM | apply Blind.bind | intro _

instance Closure.inline_blind {context : Symbol} : Blind (inline context id) := by
  unfold inline substitute removeDeclarations gatherInside gatherOutside declareWithValue
    declareBare valueOf localFor Gathered.note
  repeat' first
    | infer_instance | split | apply Blind.forM | apply Blind.foldlM | apply Blind.bind | intro _

instance Closure.inlineRule_blind : Blind (inlineRule visit id) := by
  unfold inlineRule
  repeat' first | infer_instance | split | apply Blind.bind | intro _ | dsimp only

instance FieldGuards.rule_blind : Blind (rule visit id) := by
  unfold rule invert unmark
  repeat' first | infer_instance | split | apply Blind.bind | intro _

instance FunctionReferences.rule_blind : Blind (rule visit id) := by
  unfold rule retypeVariable retype redirectEnumMethod visitCall castInRole takeAsValue readNumber
    invokeDynamically castArguments castToSignature
  repeat' first | infer_instance | split | apply Blind.forM | apply Blind.bind | intro _

instance ComponentCalls.rule_blind : Blind (rule visit id) := by
  unfold rule restore makeGeneric keepType
  repeat' first | infer_instance | split | apply Blind.bind | intro _

instance TypeValues.rule_blind : Blind (rule visit id) := by
  unfold rule restoreInRole restore declaredType
  repeat' first | infer_instance | split | apply Blind.forM | apply Blind.bind | intro _

instance Indexers.rule_blind : Blind (rule visit id) := by
  unfold rule restore
  repeat' first | infer_instance | split | apply Blind.bind | intro _ | dsimp only

instance ArrayMembers.rule_blind : Blind (rule visit id) := by
  unfold rule
  repeat' first | infer_instance | split | apply Blind.bind | intro _

instance StaticMembers.rule_blind : Blind (rule visit id) := by
  unfold rule
  repeat' first | infer_instance | split | apply Blind.bind | intro _ | dsimp only

instance Casts.conversionRule_blind {conversion : Conversion}
    {atOperator : NodeId → Name → Pass Unit} [hoperator : ∀ id op, Blind (atOperator id op)] :
    Blind (conversionRule conversion atOperator visit id) := by
  unfold conversionRule convertInitializer convertArguments convertReturn convert
  repeat' first | infer_instance | split | apply Blind.forM | apply Blind.bind | intro _

instance Casts.settleArithmetic_blind {op : Name} : Blind (settleArithmetic id op) := by
  unfold settleArithmetic
  repeat' first | infer_instance | split | apply Blind.bind | intro _

instance Casts.settleEquality_blind {op : Name} : Blind (settleEquality id op) := by
  unfold settleEquality
  repeat' first | infer_instance | split | apply Blind.bind | intro _

instance Iterators.rule_blind : Blind (rule visit id) := by
  unfold rule declareIterator
  repeat' first | infer_instance | split | apply Blind.bind | intro _

instance TruthTests.rule_blind : Blind (rule visit id) := by
  unfold rule promote visitNegation
  repeat' first | infer_instance | split | apply Blind.bind | intro _

instance ReservedWords.rule_blind : Blind (rule visit id) := by
  unfold rule
  repeat' first | infer_instance | split | apply Blind.bind | intro _

instance ReservedWords.learnRenamings_blind : Blind learnRenamings := by
  unfold learnRenamings
  repeat' first | infer_instance | split | apply Blind.forM | apply Blind.bind | intro _

instance TypeAccess.rule_blind : Blind (rule visit id) := by
  unfold rule widen
  repeat' first | infer_instance | split | apply Blind.forM | apply Blind.bind | intro _

theorem Step.run_blind (step : Step) : Blind step.run := by
  cases step
  case castValues => exact everywhere_blind fun _ _ _ => Casts.conversionRule_blind
  case castEnums => exact everywhere_blind fun _ _ _ => Casts.conversionRule_blind
  case escapeReservedWords => exact .bind inferInstance fun _ => everywhere_blind fun _ _ _ =>
    inferInstance
  all_goals exact everywhere_blind fun _ _ _ => inferInstance

instance Pass.attach_blind {comments : List Comment} : Blind (attach comments) := by
  unfold attach attachStep
  repeat' first | infer_instance | split | apply Blind.foldlM | apply Blind.bind | intro _

end UnitySharp
