import UnitySharp.Convert.Basic
import UnitySharp.Proofs.Document.Reading
import UnitySharp.Proofs.Pass.Blind

/-!
# Errors that the analyzer reported

Without best effort, an error of the analyzer stops a conversion before the tree is touched.  With
best effort errors are printed and nothing else, because no action of a conversion reads what has
been printed (`Blind`).
-/

namespace UnitySharp

/-! ## Recording the errors -/

def AnalyzerError.picture (t : Tree) (error : AnalyzerError) : Picture :=
  Report.errorPicture t.path t.source error.position
    ("The upstream compiler reported: " ++ (Name.ofJson error.message).plain : String) ""

def AnalyzerError.IsText (error : AnalyzerError) : Prop :=
  ∃ message, error.message = .text message

def Session.withIssues (s : Session) (issues : List Picture) : Session :=
  { s with report := { s.report with issues } }

theorem Report.exists_info (report : Report) (level : Int) (line : String) : ∃ printed,
    report.info level line = { report with log := report.log ++ printed } := by
  unfold info
  split
  · exact ⟨line ++ "\n", by rw [printLine, String.append_assoc]⟩
  · exact ⟨"", by simp⟩

namespace Convert

variable {s : Session} {t : Tree} {errors rest : List AnalyzerError} {error : AnalyzerError}
  {α : Type}

theorem recordError_of_isText (h : error.IsText) :
    recordError t.path t.source error s =
      if s.report.maxIssues = some ((s.report.issues.length + 1 : Nat) : Int) then
        .error .tooManyIssues (s.withIssues (s.report.issues ++ [error.picture t]))
      else .ok () (s.withIssues (s.report.issues ++ [error.picture t])) := by
  obtain ⟨message, hmessage⟩ := h
  have hrecorded :
      s.report.addAnalyzerError t.path t.source error.position (Name.ofJson error.message) =
        .ok ((s.withIssues (s.report.issues ++ [error.picture t])).report,
          s.report.maxIssues == some ((s.report.issues ++ [error.picture t]).length : Int)) := by
    rw [AnalyzerError.picture, hmessage]
    rfl
  have hrun : recordError t.path t.source error s =
      (do
        let recorded ←
          ofExcept (s.report.addAnalyzerError t.path t.source error.position
            (Name.ofJson error.message))
        modify fun session => { session with report := recorded.1 }
        if recorded.2 then throw .tooManyIssues : Convert Unit) s := rfl
  rw [hrun, hrecorded]
  change (if _ then throw ConvertFailure.tooManyIssues else pure () : Convert Unit)
    (s.withIssues _) = _
  simp only [beq_iff_eq, List.length_append, List.length_singleton]
  split <;> rfl

theorem recordError_of_not_isText (h : ¬error.IsText) :
    recordError t.path t.source error s = .error (.fault .mistyped) s := by
  have hname : ∃ value, Name.ofJson error.message = .other value := by
    unfold Name.ofJson
    split
    · rename_i message hmessage
      exact absurd ⟨message, hmessage⟩ h
    · exact ⟨_, rfl⟩
  obtain ⟨value, hvalue⟩ := hname
  rw [recordError, hvalue]
  rfl

theorem run_forM_cons {ε : Type} {item : α} {rest : List α} {action : α → EStateM ε Session Unit} :
    (item :: rest).forM action s =
      match action item s with
      | .ok _ after => rest.forM action after
      | .error failure after => .error failure after := by
  change (action item >>= fun _ => rest.forM action) s = _
  cases h : action item s <;> simp [bind, EStateM.bind, h]

theorem forM_recordError_cases (errors : List AnalyzerError) (s : Session) : ∃ issues,
    errors.forM (recordError t.path t.source) s = .ok () (s.withIssues issues) ∨
      ∃ failure, errors.forM (recordError t.path t.source) s =
        .error failure (s.withIssues issues) := by
  induction errors generalizing s with
  | nil => exact ⟨s.report.issues, .inl rfl⟩
  | cons error rest ih =>
    rw [run_forM_cons]
    by_cases htext : error.IsText
    · rw [recordError_of_isText htext]
      by_cases hfull : s.report.maxIssues = some ((s.report.issues.length + 1 : Nat) : Int)
      · rw [if_pos hfull]
        exact ⟨_, .inr ⟨_, rfl⟩⟩
      · rw [if_neg hfull]
        exact ih _
    · rw [recordError_of_not_isText htext]
      exact ⟨s.report.issues, .inr ⟨_, rfl⟩⟩

theorem forM_recordError_append
    (hmax : ∀ count : Nat, 1 ≤ count → count ≤ errors.length →
      s.report.maxIssues ≠ some ((s.report.issues.length + count : Nat) : Int))
    (htext : ∀ error ∈ errors, error.IsText) :
    (errors ++ rest).forM (recordError t.path t.source) s =
      rest.forM (recordError t.path t.source)
    (s.withIssues (s.report.issues ++ errors.map (·.picture t))) := by
  induction errors generalizing s with
  | nil => rw [List.map_nil, List.append_nil, List.nil_append]; rfl
  | cons error errors ih =>
    rw [List.forall_mem_cons] at htext
    rw [List.cons_append, run_forM_cons, recordError_of_isText htext.1,
      if_neg (hmax 1 (by omega) (by simp))]
    refine (ih (fun count _ hcount => ?_) htext.2).trans ?_
    · have hnext := hmax (count + 1) (by omega) (Nat.succ_le_succ hcount)
      rw [Session.withIssues, List.length_append, List.length_singleton]
      rwa [show s.report.issues.length + (count + 1) = s.report.issues.length + 1 +
        count by omega] at hnext
    · simp [Session.withIssues]

theorem forM_recordError_full (hfresh : s.report.issues = [])
    (hmax : s.report.maxIssues = some ((errors.length + 1 : Nat) : Int))
    (htext : ∀ error ∈ errors, error.IsText) (herror : error.IsText) :
    (errors ++ error :: rest).forM (recordError t.path t.source) s =
      .error .tooManyIssues (s.withIssues ((errors ++ [error]).map (·.picture t))) := by
  rw [forM_recordError_append (by rw [hmax]; simp [hfresh]; omega) htext, run_forM_cons,
    recordError_of_isText herror, if_pos (by simpa [Session.withIssues, hfresh] using hmax)]
  simp [Session.withIssues, hfresh]

theorem screen_of_errors (herrors : errors ≠ []) :
    screen errors false s = match errors.forM (recordError s.tree.path s.tree.source) s with
      | .ok _ after => .error .refused after
      | .error failure after => .error failure after := by
  have hsome : (!errors.isEmpty && !false) = true := by simpa using herrors
  simp only [screen, hsome, if_true]
  change (errors.forM (recordError s.tree.path s.tree.source) >>= fun _ => throw .refused) s = _
  cases h : errors.forM (recordError s.tree.path s.tree.source) s <;> simp only [Bind.bind,
    EStateM.bind, h]
  rfl

theorem screen_refuses (herrors : errors ≠ []) (hfresh : s.report.issues = []) :
    ∃ failure issues, screen errors false s = .error failure (s.withIssues issues) ∧
      ((∀ error ∈ errors, error.IsText) →
        (∀ m : Nat, s.report.maxIssues = some (m : Int) → 1 ≤ m → m ≤ errors.length →
          failure = .tooManyIssues ∧ issues = (errors.take m).map (·.picture s.tree)) ∧
        ((∀ m : Nat, 1 ≤ m → m ≤ errors.length → s.report.maxIssues ≠ some (m : Int)) →
          failure = .refused ∧ issues = errors.map (·.picture s.tree))) := by
  rw [screen_of_errors herrors]
  by_cases htext : ∀ error ∈ errors, error.IsText
  · by_cases hfull : ∃ m : Nat, 1 ≤ m ∧ m ≤ errors.length ∧ s.report.maxIssues = some (m : Int)
    · obtain ⟨m, hpos, hle, hmax⟩ := hfull
      obtain ⟨before, error, after, rfl, rfl⟩ : ∃ before error after,
          errors = before ++ error :: after ∧ before.length + 1 = m :=
        ⟨errors.take (m - 1), errors[m - 1], errors.drop (m - 1 + 1), by simp, by simp; omega⟩
      rw [List.forall_mem_append, List.forall_mem_cons] at htext
      rw [forM_recordError_full hfresh hmax htext.1 htext.2.1]
      refine ⟨_, _, rfl, fun _ =>
        ⟨fun count hcount _ _ => ?_, fun hnot => absurd hmax (hnot _ hpos hle)⟩⟩
      cases hmax.symm.trans hcount
      have htake : (before ++ error :: after).take (before.length + 1) = before ++ [error] := by
        rw [List.append_cons, List.take_left' (by simp)]
      exact ⟨rfl, by rw [htake]⟩
    · have hnot : ∀ m : Nat, 1 ≤ m → m ≤ errors.length → s.report.maxIssues ≠ some (m : Int) :=
        fun m hpos hle hmax => hfull ⟨m, hpos, hle, hmax⟩
      have hrun := @forM_recordError_append s s.tree errors [] (by simpa [hfresh] using hnot) htext
      rw [List.append_nil, hfresh] at hrun
      rw [hrun]
      exact ⟨.refused, _, rfl, fun _ => ⟨fun m hmax hpos hle => absurd hmax (hnot m hpos hle),
        fun _ => ⟨rfl, rfl⟩⟩⟩
  · obtain ⟨issues, hrun | ⟨failure, hrun⟩⟩ := forM_recordError_cases errors s
    · rw [hrun]
      exact ⟨_, _, rfl, fun h => absurd h htext⟩
    · rw [hrun]
      exact ⟨_, _, rfl, fun h => absurd h htext⟩

/-! ## Going on in spite of them -/

theorem ofPass_blind {pass : Pass α} (h : Blind pass) : Blind (ofPass pass) := by
  constructor
  intro head issues s
  unfold ofPass
  rw [h.run_behind]
  cases pass s <;> rfl

theorem report_blind {f : Report → Report}
    (h : ∀ report head issues, f (report.behind head issues) = (f report).behind head issues) :
      Blind (report f) :=
  ⟨fun head issues s => congrArg (fun report => EStateM.Result.ok () (Session.mk s.tree report))
    (h s.report head issues)⟩

theorem info_blind (level : Int) (line : String) : Blind (report fun r => r.info level line) :=
  report_blind fun r => r.info_behind level line

theorem get_blind {next : Session → Convert α}
    (hsame : ∀ s head issues, next (s.behind head issues) = next s) (hnext : ∀ s, Blind (next s)) :
    Blind (get >>= next) := by
  constructor
  intro head issues s
  change next (s.behind head issues) (s.behind head issues) = Session.endBehind head issues
    (next s s)
  rw [hsame, (hnext s).run_behind]

theorem takeStep_blind (step : Step) : Blind (takeStep step) :=
  .bind (info_blind _ _) fun _ => ofPass_blind step.run_blind

theorem write_blind : Blind write := by
  refine get_blind (fun _ _ _ => rfl) fun s => ?_
  dsimp only
  split
  · infer_instance
  · refine .bind (report_blind fun report head issues => ?_) fun _ => ?_
    · exact List.foldl_hom (fun r : Report => r.behind head issues) fun _ _ => rfl
    · split <;> infer_instance

theorem exists_remainder : ∃ remainder : Session → Convert Conversion, (∀ s, Blind (remainder s)) ∧
    ∀ errors bestEffort s, convertModule errors bestEffort s =
      (screen errors bestEffort >>= fun _ => remainder s)
        ⟨s.tree, s.report.info 1 ("Converting " ++ s.tree.path.plain)⟩ := by
  unfold convertModule
  refine ⟨_, ?_, fun _ _ s => rfl⟩
  intro s
  refine get_blind (fun _ _ _ => rfl) fun s => ?_
  refine .bind (ofPass_blind inferInstance) fun source => ?_
  refine .bind (.forM takeStep_blind) fun _ => ?_
  refine .bind (ofPass_blind inferInstance) fun comments => ?_
  refine .bind write_blind fun written => ?_
  refine .bind (.forM fun _ => report_blind fun _ _ _ => rfl) fun _ => ?_
  refine .bind (info_blind _ _) fun _ => ?_
  exact get_blind (fun _ _ _ => rfl) fun _ => inferInstance

theorem screen_of_bestEffort (errors : List AnalyzerError) (s : Session) : ∃ warnings,
    screen errors true s = .ok ()
    { s with report := { s.report with log := s.report.log ++ warnings } } := by
  have hscreen : screen errors true s =
      (errors.forM fun error => report fun r => r.warn s.tree.path error.message error.position)
        s := by
    simp only [screen, Bool.not_true, Bool.and_false]
    rfl
  rw [hscreen]
  generalize s.tree.path = path
  clear hscreen
  induction errors generalizing s with
  | nil => exact ⟨"", by simp [Pure.pure, EStateM.pure]⟩
  | cons error rest ih =>
    obtain ⟨line, hline⟩ := s.report.exists_info 1
      ("Warning: " ++ path.plain ++ " " ++ describePosition error.position ++ ": " ++
        error.message.plain)
    obtain ⟨warnings, hwarnings⟩ := ih ⟨s.tree, s.report.warn path error.message error.position⟩
    refine ⟨line ++ warnings, ?_⟩
    rw [run_forM_cons]
    refine hwarnings.trans ?_
    rw [Report.warn, hline, String.append_assoc]

end Convert

/-- A module with errors of the analyzer is refused before anything is touched: the errors are
recorded in order, up to as many as the report puts up with.  With best effort no issue is recorded,
and the conversion ends just as it does without errors, but for what is printed. -/
theorem convertModule_of_errors (t : Tree) (report : Report) (hfresh : report.issues = [])
    (errors : List AnalyzerError) (herrors : errors ≠ []) :
    (∃ failure after, convertModule errors false ⟨t, report⟩ = .error failure after ∧
      after.tree = t ∧ after.report.unsupported = report.unsupported ∧
        after.report.orphans = report.orphans ∧ ((∀ error ∈ errors, error.IsText) →
          (∀ m : Nat, report.maxIssues = some (m : Int) → 1 ≤ m → m ≤ errors.length →
            failure = .tooManyIssues ∧ after.report.issues = (errors.take m).map (·.picture t)) ∧
          ((∀ m : Nat, 1 ≤ m → m ≤ errors.length → report.maxIssues ≠ some (m : Int)) →
            failure = .refused ∧ after.report.issues = errors.map (·.picture t)))) ∧
    ∃ opening warnings outcome,
      convertModule [] true ⟨t, report⟩ = Session.endBehind opening [] outcome ∧
        convertModule errors true ⟨t, report⟩ = Session.endBehind (opening ++ warnings)
    [] outcome := by
  obtain ⟨remainder, hblind, hmodule⟩ := Convert.exists_remainder
  obtain ⟨opening, hopening⟩ := report.exists_info 1 ("Converting " ++ t.path.plain)
  simp only [hmodule, hopening, Bind.bind, EStateM.bind]
  constructor
  · obtain ⟨failure, issues, hscreen, hissues⟩ := Convert.screen_refuses
      (s := ⟨t, { report with log := report.log ++ opening }⟩) herrors hfresh
    rw [hscreen]
    exact ⟨failure, _, rfl, rfl, rfl, rfl, hissues⟩
  · obtain ⟨warnings, hscreen⟩ :=
      Convert.screen_of_bestEffort errors ⟨t, { report with log := report.log ++ opening }⟩
    have hbehind : ∀ log, (⟨t, { report with log }⟩ : Session) =
        (⟨t, { report with log := "" }⟩ : Session).behind log [] := by
      intro log
      simp [Session.behind, Report.behind, hfresh]
    refine ⟨report.log ++ opening, warnings, remainder ⟨t, report⟩ ⟨t, { report with log := "" }⟩,
      ?_, ?_⟩
    · rw [← (hblind _).run_behind, ← hbehind]
      rfl
    · rw [← (hblind _).run_behind, ← hbehind, hscreen]

theorem convertModule_of_errors_twice : ∃ document failure after,
    readDocument (Json.methodDocument [] []) .null = .ok document ∧
      convertModule [⟨.text "a", none⟩, ⟨.text "b", none⟩] false ⟨document.tree,
        .ofVerbosity 0 (some 2)⟩ = .error failure after ∧
          failure = .tooManyIssues ∧ after.tree = document.tree ∧
            after.report.issues.length = 2 := by
  obtain ⟨document, hread, _⟩ :=
    Json.exists_of_holds (show (Json.methodDocument [] []).holds (fun _ => true) = true by
    decide +kernel)
  obtain ⟨⟨failure, after, hrun, htree, _, _, hissues⟩, _⟩ := convertModule_of_errors document.tree
    (.ofVerbosity 0 (some 2)) rfl [⟨.text "a", none⟩, ⟨.text "b", none⟩] (by simp)
  have htext : ∀ error ∈ [⟨.text "a", none⟩, ⟨.text "b", none⟩], AnalyzerError.IsText error := by
    simp [AnalyzerError.IsText]
  obtain ⟨hfailure, hpictures⟩ := (hissues htext).1 2 rfl (by decide) (by decide)
  exact ⟨document, failure, after, hread, hrun, hfailure, htree, by rw [hpictures]; rfl⟩

end UnitySharp
