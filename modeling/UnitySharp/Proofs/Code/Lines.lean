import UnitySharp.Proofs.Code.Notes
import UnitySharp.Proofs.Convert.Linked

/-!
# Lines

Every statement of a block or a section and every member of a module or a type ends its line, and
whatever is written leaves the level of indentation as it was (`Tree.Sound.keeps_lines`).
-/

namespace UnitySharp

open List

variable {marks : List Mark} {t : Tree} {id p : NodeId} {role : Role} {iterator : Bool}
  {depth : Nat}

/-! ## The writer -/

namespace Writer

variable {w after : Writer} {first second : List Mark}

theorem putAll?_append (w : Writer) (first second : List Mark) :
    w.putAll? (first ++ second) = (w.putAll? first).bind fun middle => middle.putAll? second := by
  induction first generalizing w with
  | nil => rfl
  | cons mark rest ih =>
    simp only [cons_append, putAll?]
    split
    · rfl
    · exact ih _

theorem level_write (w : Writer) (s : String) : (w.write s).level = w.level := by
  unfold write
  split
  · rfl
  · split <;> rfl

theorem level_writeName (w : Writer) (name : Name) : (w.writeName name).level = w.level := by
  unfold writeName
  split
  · exact level_write w _
  · split <;> rfl

theorem level_comment (w : Writer) (c : Comment) : (w.comment c).level = w.level := by
  have hlines : ∀ (lines : List String) (w : Writer),
      (lines.foldl (fun w line => (w.write line).newline) w).level = w.level := by
    intro lines
    induction lines with
    | nil => exact fun _ => rfl
    | cons line rest ih => exact fun w => (ih _).trans (level_write w line)
  unfold comment
  split
  · split
    · exact hlines _ w
    · exact level_write w _
  · exact level_write w _
  · rfl
  · rfl

/-- The writer gets through marks if the level stays above zero, and then has the level that they
lead to. -/
theorem level_putAll? (w : Writer) (marks : List Mark) :
    (w.putAll? marks).map Writer.level = levelAfter marks w.level := by
  induction marks generalizing w with
  | nil => rfl
  | cons mark rest ih =>
    cases mark with
    | dedent =>
      simp only [putAll?, put?, dedent?, levelAfter]
      split
      · rename_i hzero
        split at hzero <;> simp_all
      · rename_i hsome
        split at hsome
        · cases hsome
        · cases hsome
          rename_i hlevel
          rw [if_neg hlevel]
          exact ih _
    | text s => exact (ih _).trans (by rw [level_write]; rfl)
    | name name => exact (ih _).trans (by rw [level_writeName]; rfl)
    | comment c => exact (ih _).trans (by rw [level_comment]; rfl)
    | line => exact ih _
    | indent => exact ih _
    | unsupported record => exact ih _

end Writer

theorem Balanced.exists_putAll? (h : Balanced marks) (w : Writer) :
    ∃ after, w.putAll? marks = some after ∧ after.level = w.level :=
  Option.map_eq_some_iff.mp ((w.level_putAll? marks).trans (h w.level))

/-- Marks after which the writer is at the start of a line, with no comment waiting for its end. -/
def EndsLine (marks : List Mark) : Prop :=
  ∀ w after : Writer, w.putAll? marks = some after → after.atLineStart = true ∧ after.trailing = []

namespace EndsLine

theorem after (first : List Mark) (h : EndsLine marks) : EndsLine (first ++ marks) := by
  intro w after hput
  rw [Writer.putAll?_append] at hput
  obtain ⟨middle, _, hput⟩ := Option.bind_eq_some_iff.mp hput
  exact h middle after hput

theorem line (first : List Mark) : EndsLine (first ++ [.line]) := by
  refine after first fun w after hput => ?_
  cases hput
  exact ⟨rfl, rfl⟩

end EndsLine

/-! ## Printing -/

namespace Printer

variable {emit : Emit} {emitIn : Bool → Emit}

def Ends (printed : Printed) : Prop :=
  ∀ marks, printed = .ok marks → EndsLine marks

namespace Ends

theorem ok (h : EndsLine marks) : Ends (.ok marks) := by
  intro other hother
  cases hother
  exact h

theorem error {fault : Fault} : Ends (.error fault) :=
  fun _ h => nomatch h

theorem bind {α : Type} {first : Except Fault α} {next : α → Printed}
    (h : ∀ result, first = .ok result → Ends (next result)) : Ends (first >>= next) := by
  intro marks hmarks
  obtain ⟨result, hresult, hmarks⟩ := Except.bind_eq_ok hmarks
  exact h result hresult marks hmarks

theorem body (h : ∀ c ∈ t.listed id role, t.kind c = .block ∧ Ends (emit c)) :
    Ends (Printer.body t emit ((t.node id).kid role)) := by
  unfold Printer.body
  split
  · rename_i c hkid
    obtain ⟨hkind, hends⟩ := h c (by simp [Tree.listed, Node.kidList, hkid, Occupants.toList])
    refine .bind fun marks hmarks => .ok ?_
    simpa [hkind] using hends marks hmarks
  · exact .error

theorem child (h : ∀ c ∈ t.listed id role, Ends (emit c)) :
    Ends (Printer.child emit ((t.node id).kid role)) := by
  unfold Printer.child
  split
  · rename_i c hkid
    exact h c (by simp [Tree.listed, Node.kidList, hkid, Occupants.toList])
  · exact .error

end Ends

end Printer

def NodeKind.isMember : NodeKind → Bool
  | .typeDef | .field | .method | .constructor => true
  | _ => false

/-- The role under which a node lists statements or members, each on lines of its own, with the
kinds it is meant for. -/
def Shape.listing? : Shape → Option (Role × (NodeKind → Bool))
  | .block => some (.statements, NodeKind.isStatement)
  | .switchSection => some (.body, NodeKind.isStatement)
  | .module _ _ _ => some (.members, NodeKind.isMember)
  | .typeDef _ kind _ _ _ => if kind = .enumType then none else some (.members, NodeKind.isMember)
  | _ => none

def Shape.bodyRoles : Shape → List Role
  | .ifStatement => [.thenBranch, .elseBranch]
  | .whileLoop | .forEach | .method _ | .constructor _ => [.body]
  | _ => []

namespace Tree

variable {c : NodeId}

/-- What a node holds as statements, as members or as a body is of a kind that its place calls for,
or an unknown statement or member. -/
def fits (t : Tree) (p : NodeId) : Bool :=
  ((t.shape p).listing?.all fun (role, suits) =>
      (t.listed p role).all fun c => suits (t.kind c) || t.kind c == .unknown) &&
    (t.shape p).bodyRoles.all fun role => (t.listed p role).all fun c => t.kind c == .block

def Kinded (t : Tree) : Prop :=
  ∀ p, t.Beneath t.root p → t.fits p = true

theorem Kinded.body (h : t.Kinded) (hp : t.Beneath t.root p) (hrole : role ∈ (t.shape p).bodyRoles)
    (hc : c ∈ t.listed p role) : t.kind c = .block := by
  have hbodies := (Bool.and_eq_true_iff.mp (h p hp)).2
  exact eq_of_beq (all_eq_true.mp (all_eq_true.mp hbodies role hrole) c hc)

theorem Kinded.suits (h : t.Kinded) {suits : NodeKind → Bool} (hp : t.Beneath t.root p)
    (hlisting : (t.shape p).listing? = some (role, suits)) (hc : c ∈ t.listed p role) :
    suits (t.kind c) = true ∨ t.kind c = .unknown := by
  have hlisted := (Bool.and_eq_true_iff.mp (h p hp)).1
  rw [hlisting] at hlisted
  simpa using all_eq_true.mp hlisted c hc

open Printer in
theorem Kinded.marksWithin_ends (h : t.Kinded) (hid : t.Beneath t.root id)
    (hkind : (t.kind id).isStatement = true ∨ (t.kind id).isMember = true) :
    Ends (marksWithin t depth iterator id) := by
  induction depth generalizing id iterator with
  | zero => exact .error
  | succ depth ih =>
    have hbody : ∀ inside, ∀ role ∈ (t.node id).shape.bodyRoles, ∀ c ∈ t.listed id role,
        t.kind c = .block ∧ Ends (marksWithin t depth inside c) := by
      intro inside role hrole c hc
      have hblock := h.body hid hrole hc
      exact ⟨hblock,
        ih (hid.tail ((t.listed_sublist id role).subset hc)) (.inl (by rw [hblock]; rfl))⟩
    suffices hends :
      Ends (nodeMarks t (fun inside child => marksWithin t depth inside child) iterator id) by
      exact .bind fun marks hmarks => .ok (.after _ (hends marks hmarks))
    have hotherwise : ∀ marks, elseBranch t (fun child => marksWithin t depth iterator child)
        ((t.node id).kid .elseBranch) = .ok marks → .elseBranch ∈ (t.node id).shape.bodyRoles →
          marks = [] ∨ EndsLine marks := by
      intro marks hmarks hrole
      unfold elseBranch at hmarks
      split at hmarks
      · cases hmarks
        exact .inl rfl
      · rename_i branch hkid
        have hbranch : branch ∈ t.listed id .elseBranch := by
          simp [listed, Node.kidList, hkid, Occupants.toList]
        split at hmarks
        · rename_i only honly
          have hbelow : t.Beneath t.root only :=
            (hid.tail ((t.listed_sublist id _).subset hbranch)).tail
            ((t.listed_sublist branch .statements).subset
              (by simp [listed, (elseIf?_some honly).1]))
          have hends := @ih _ iterator hbelow (.inl (by rw [(elseIf?_some honly).2.2.2]; rfl))
          exact .inr (Ends.bind (fun inner hinner => .ok (.after _ (hends inner hinner))) marks
            hmarks)
        · have hends := Ends.body (hbody iterator .elseBranch hrole)
          exact .inr (Ends.bind (fun inner hinner => .ok (.after _ (hends inner hinner))) marks
            hmarks)
      · cases hmarks
    cases hshape : (t.node id).shape
    all_goals
      rw [hshape] at hbody hotherwise
      simp only [nodeMarks, hshape]
    case block | expressionStatement => exact .bind fun _ _ => .ok (.line _)
    case declaration | switchStatement => exact .bind fun _ _ => .bind fun _ _ => .ok (.line _)
    case breakStatement | continueStatement => exact .ok (.line _)
    case field =>
      exact .bind fun _ _ => .bind fun _ _ => .bind fun _ _ => .bind fun _ _ => .bind fun _ _ =>
        .ok (.line _)
    case typeDef =>
      refine .bind fun _ _ => .bind fun _ _ => ?_
      split
      · refine .bind fun _ _ => ?_
        split <;> exact .bind fun _ _ => .ok (.line _)
      · refine .bind fun _ _ => .bind fun _ _ => ?_
        split <;> exact .bind fun _ _ => .ok (.line _)
    case goto | label =>
      refine .bind fun s _ => ?_
      split <;> exact .ok (.line _)
    case returnStatement =>
      split
      · exact .ok (.line _)
      · split
        · exact .ok (.line _)
        · exact .bind fun _ _ => .ok (.line _)
    case yieldStatement => split <;> exact .bind fun _ _ => .ok (.line _)
    case ifStatement =>
      refine .bind fun condition _ => .bind fun thenMarks hthen => .bind fun elseMarks helse =>
        .ok ?_
      have hends := Ends.body (hbody _ _ (by simp [Shape.bodyRoles])) thenMarks hthen
      rcases hotherwise elseMarks helse (by simp [Shape.bodyRoles]) with rfl | hotherwise
      · rw [append_nil]
        exact hends.after _
      · exact hotherwise.after _
    case whileLoop =>
      refine .bind fun condition _ => .bind fun bodyMarks hmarks => .ok (.after _ ?_)
      exact Ends.body (hbody _ _ (by simp [Shape.bodyRoles])) bodyMarks hmarks
    case forEach =>
      have hends := Ends.body (hbody iterator .body (by simp [Shape.bodyRoles]))
      split
      · refine .bind fun _ _ => .bind fun _ _ => .bind fun _ _ => .bind fun bodyMarks hmarks =>
          .ok (.after _ ?_)
        exact hends bodyMarks hmarks
      · exact .error
    case method =>
      refine .bind fun iterates _ => .bind fun signatureMarks _ => .bind fun bodyMarks hmarks =>
        .ok (.after _ ?_)
      exact Ends.child (fun c hc => (hbody _ .body (by simp [Shape.bodyRoles]) c hc).2) bodyMarks
        hmarks
    case constructor =>
      refine .bind fun signatureMarks _ => .bind fun bodyMarks hmarks => .ok (.after _ ?_)
      exact Ends.child (fun c hc => (hbody _ .body (by simp [Shape.bodyRoles]) c hc).2) bodyMarks
        hmarks
    all_goals simp [kind, shape, hshape, Shape.kind, NodeKind.isStatement,
      NodeKind.isMember] at hkind

/-- A statement or member of an unknown kind ends its line because of the place it stands in. -/
theorem Intact.unknown_ends (h : t.Intact p) (hkind : t.kind id = .unknown)
    {suits : NodeKind → Bool} (hlisting : (t.shape p).listing? = some (role, suits))
    (hid : id ∈ t.listed p role) :
    Printer.Ends (Printer.marksWithin t depth iterator id) := by
  have hparent := h.parent_child ((t.listed_sublist p role).subset hid)
  cases depth with
  | zero => exact .error
  | succ depth =>
    refine .bind fun marks hmarks => .ok (.after _ ?_)
    revert marks
    suffices hends : Printer.Ends (Printer.nodeMarks t _ iterator id) from hends
    cases hshape : (t.node id).shape
    case unknown unknownKind text type =>
      simp only [Printer.nodeMarks, hshape, Printer.unknownNode, hparent, kind]
      cases hp : t.shape p
      all_goals simp only [hp, Shape.listing?, reduceCtorEq, Option.some.injEq,
        Prod.mk.injEq] at hlisting
      case switchSection =>
        have hcontains : ((t.node p).kidList .body).contains id = true :=
          contains_iff_mem.mpr (hlisting.1 ▸ hid)
        simp only [Shape.kind, hcontains, if_true]
        split <;> exact .bind fun _ _ => .ok (.line _)
      all_goals
        simp only [Shape.kind, if_true]
        split <;> exact .bind fun _ _ => .ok (.line _)
    all_goals simp [kind, shape, hshape, Shape.kind] at hkind

/-- The emitter keeps its lines.  Where statements, members and bodies are of the kinds that their
places call for, a statement of a block or section and a member of a module or type leave the writer
at the start of a line with no comment waiting.  Every node leaves the level as it was, and no level
is left that was not entered. -/
theorem Sound.keeps_lines (hsound : t.Sound) (hkinded : t.Kinded) (hid : t.Beneath t.root id)
    {depth : Nat} {iterator : Bool} {marks : List Mark}
    (hmarks : Printer.marksWithin t depth iterator id = .ok marks) (w : Writer) :
    ∃ after, w.putAll? marks = some after ∧ after.level = w.level ∧
      ∀ p role suits, t.Beneath t.root p → (t.shape p).listing? = some (role, suits) →
        id ∈ t.listed p role → after.atLineStart = true ∧ after.trailing = [] := by
  have hbalanced :=
    (Printer.marksWithin_prints t (fun _ => false) depth iterator id (Nat.le_refl _) marks hmarks).1
  obtain ⟨after, hput, hlevel⟩ := hbalanced.exists_putAll? w
  refine ⟨after, hput, hlevel, fun p role suits hp hlisting hlisted => ?_⟩
  suffices hends : Printer.Ends (Printer.marksWithin t depth iterator id) from hends marks hmarks w
    after hput
  rcases hkinded.suits hp hlisting hlisted with hsuits | hunknown
  · refine hkinded.marksWithin_ends hid ?_
    cases hshape : t.shape p <;> simp only [hshape, Shape.listing?, reduceCtorEq] at hlisting
    case block | switchSection =>
      cases hlisting
      exact .inl hsuits
    case module =>
      cases hlisting
      exact .inr hsuits
    case typeDef =>
      split at hlisting
      · cases hlisting
      · cases hlisting
        exact .inr hsuits
  · exact (hsound.intact.beneath hp).unknown_ends hunknown hlisting hlisted

end Tree

theorem Tree.Sound.keeps_lines_captureSample : ∃ document id marks after,
    readDocument Json.captureSample .null = .ok document ∧ document.tree.Kinded ∧
      document.tree.kind id = .ifStatement ∧ document.tree.marks id = .ok marks ∧
        Writer.initial.putAll? marks = some after ∧ after.level = 0 ∧ after.atLineStart = true ∧
          after.trailing = [] := by
  obtain ⟨document, hread, h⟩ := Json.exists_of_holds (show Json.captureSample.holds (fun t =>
    (t.walk t.root).all t.fits && (t.walk t.root).any fun p => t.kind p == .block &&
      (t.listed p .statements).any fun id => t.kind id == .ifStatement && (t.marks id).isOk) =
        true by decide +kernel)
  simp only [Bool.and_eq_true, all_eq_true, any_eq_true, beq_iff_eq] at h
  obtain ⟨hfits, p, hp, hblock, id, hid, hif, hprinted⟩ := h
  have hsound := readDocument_sound hread
  have hbelow := beneath_of_mem_walk hp
  have hkinded : document.tree.Kinded :=
    fun p hp => hfits p (mem_walk_of_beneath hsound.intact.shallow hp)
  cases hmarks : document.tree.marks id with
  | error fault => simp [hmarks, Except.isOk, Except.toBool] at hprinted
  | ok marks =>
    have hlisting :
      (document.tree.shape p).listing? = some (.statements, NodeKind.isStatement) := by
      cases hshape : document.tree.shape p <;> simp_all [Tree.kind, Shape.kind, Shape.listing?]
    have hbelowId := hbelow.tail ((document.tree.listed_sublist p .statements).subset hid)
    obtain ⟨after, hput, hlevel, hlines⟩ :=
      hsound.keeps_lines hkinded hbelowId hmarks Writer.initial
    exact ⟨document, id, marks, after, hread, hkinded, hif, hmarks, hput, hlevel,
      hlines p _ _ hbelow hlisting hid⟩

end UnitySharp
