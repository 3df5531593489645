import UnitySharp.Proofs.Document.Reading
import UnitySharp.Proofs.Pass.Moving

/-!
# Guards that are turned around

A guard jumps over the statements behind it to a label; turned around, it holds them.  The
statements of its block still run in the same order, whatever course things take (`Course`).
-/

namespace UnitySharp.FieldGuards

open UnitySharp.Tree Pass List

variable {t t' : Tree} {label : Name} {id landing block : NodeId}
  {list rest moved tail own front : List NodeId}

/-! ## Running the statements of a block -/

/-- Control goes on behind a statement, to a label, or away for good. -/
inductive Ending where
  | onward
  | jump (label : Name)
  | away

/-- What conditions evaluate to and how statements end, given what has run before. -/
structure Course where
  holds : List NodeId → NodeId → Bool
  ends : List NodeId → NodeId → Ending

/-- The statements behind the first label of a name. -/
def behind (t : Tree) (label : Name) : List NodeId → Option (List NodeId)
  | [] => none
  | statement :: rest => if isLabelNamed t label statement then some rest else behind t label rest

section

variable (t : Tree) (own : List NodeId) (block id : NodeId) (course : Course) (ran : List NodeId)

def Course.value (condition : NodeId) : Bool :=
  match t.shape condition with
  | .unary op _ _ =>
    if op.is "not" then !(t.only? condition .operand).any (course.holds ran) else course.holds ran
      condition
  | _ => course.holds ran condition

def Course.ending (statement : NodeId) : Ending :=
  match t.shape statement with
  | .label _ => .onward
  | .goto label => .jump label
  | _ => course.ends ran statement

def branch : List NodeId :=
  (t.only? id .thenBranch).elim [] fun body => t.listed body .statements

def inside : List NodeId :=
  (branch t id).filter (· ∈ own)

/-- The label of the jump that the branch begins with, unless it is one of the statements. -/
def leap? : Option Name :=
  match (branch t id).head?.map fun first => (decide (first ∈ own), t.shape first) with
  | some (false, .goto label) => some label
  | _ => none

/-- The statements of a block in their order.  Those that an `if` has in its branch come right
behind it. -/
def spread : List NodeId :=
  (t.listed block .statements).flatMap fun statement =>
    if statement = id then id :: inside t own id else [statement]

/-- A jump goes to the nearest label ahead, or else to the first one in the block. -/
def land (label : Name) (ahead : List NodeId) : Option (List NodeId) :=
  behind t label ahead <|> behind t label (spread t own block id)

/-- Runs the statement that stands ahead: what has run then, and what stands ahead.  Labels do not
count.  There is no such step at the end of the block and where control leaves it. -/
def step : List NodeId → Option (List NodeId × List NodeId)
  | [] => none
  | statement :: ahead =>
    if statement = id then
      let next :=
        if (t.only? id .condition).any (course.value t ran) then
          match leap? t own id with
          | some label => land t own block id label ahead
          | none => some ahead
        else some (ahead.drop (inside t own id).length)
      next.map fun next => (ran ++ [id], next)
    else
      let noted := if t.kind statement = .label then ran else ran ++ [statement]
      match course.ending t ran statement with
      | .onward => some (noted, ahead)
      | .jump label => (land t own block id label ahead).map fun next => (noted, next)
      | .away => none

/-- What may have run of a block when some of its statements stand ahead. -/
inductive Runs : List NodeId → List NodeId → Prop where
  | start : Runs [] (spread t own block id)
  | step {ran ahead ran' ahead' : List NodeId} (h : Runs ran ahead)
      (hstep : step t own block id course ran ahead = some (ran', ahead')) : Runs ran' ahead'

/-- What may have run when it is over, because nothing stands ahead or by a last statement. -/
def Stops (last : Option NodeId) : Prop :=
  ∃ ahead, Runs t own block id course ran ahead ∧ step t own block id course ran ahead = none ∧
    ahead.head? = last

end

/-- The statements that a block has in one tree run in the same order in another, and stop in the
same way if at all. -/
def RunAlike (t t' : Tree) (block id : NodeId) (course : Course) : Prop :=
  ∀ ran, let own := t.listed block .statements
    ((∃ ahead, Runs t own block id course ran ahead) ↔ ∃ ahead,
      Runs t' own block id course ran ahead) ∧ ∀ last, Stops t own block id course ran last ↔
      Stops t' own block id course ran last

def Spares (t : Tree) (course : Course) (landing : NodeId) (statements : List NodeId) : Prop :=
  ∀ a ∈ statements, ∀ ran label, course.ending t ran a = .jump label →
    isLabelNamed t label landing = false

theorem isLabelNamed_of_kind (h : t.kind id ≠ .label) : isLabelNamed t label id = false := by
  unfold isLabelNamed
  split
  · rename_i hshape
    exact absurd (congrArg Shape.kind hshape) h
  · rfl

theorem behind_suffix (h : behind t label list = some rest) : rest <:+ list := by
  induction list with
  | nil => cases h
  | cons a list ih =>
    rw [behind] at h
    split at h
    · cases h
      exact suffix_cons a _
    · exact (ih h).trans (suffix_cons a list)

theorem behind_filter {t t' : Tree} {label : Name} {keep : NodeId → Bool} {list : List NodeId}
    (h : ∀ a ∈ list, if keep a then isLabelNamed t' label a = isLabelNamed t label
      a else isLabelNamed t label a = false) :
    behind t' label (list.filter keep) = (behind t label list).map (·.filter keep) := by
  induction list with
  | nil => rfl
  | cons a list ih =>
    rw [forall_mem_cons] at h
    rw [filter_cons]
    cases hkeep : keep a with
    | false =>
      rw [hkeep] at h
      simpa [behind, show isLabelNamed t label a = false from h.1] using ih h.2
    | true =>
      rw [hkeep] at h
      rw [if_pos rfl, behind, behind,
        show isLabelNamed t' label a = isLabelNamed t label a from h.1, ih h.2]
      split <;> rfl

theorem behind_landing (hbetween : ∀ a ∈ moved, isLabelNamed t label a = false)
    (hlands : isLabelNamed t label landing = true) : behind t label
    (moved ++ landing :: tail) = some tail := by
  induction moved with
  | nil => rw [nil_append, behind, hlands, if_pos rfl]
  | cons a moved ih =>
    rw [forall_mem_cons] at hbetween
    rw [cons_append, behind, hbetween.1, if_neg Bool.false_ne_true, ih hbetween.2]

theorem filter_bne (h : landing ∉ list) : list.filter (· != landing) = list :=
  filter_eq_self.mpr fun _ ha => bne_iff_ne.mpr fun heq => h (heq ▸ ha)

theorem spread_eq (hlisted : t.listed block .statements = front ++ id :: rest)
    (hnodup : (front ++ id :: rest).Nodup) :
    spread t own block id = front ++ id :: (inside t own id ++ rest) := by
  have hother : ∀ list : List NodeId, id ∉ list →
      (list.flatMap fun statement =>
        if statement = id then id :: inside t own id else [statement]) = list := by
    intro list hnot
    induction list with
    | nil => rfl
    | cons a list ih =>
      rw [mem_cons, not_or] at hnot
      rw [flatMap_cons, if_neg (Ne.symm hnot.1), ih hnot.2]
      rfl
  rw [spread, hlisted, flatMap_append, flatMap_cons, if_pos rfl, hother front (by grind),
    hother rest (by grind)]
  rfl

/-! ## The same statements run -/

/-- A guard and the statements of its block, before and after it was turned around. -/
structure Facing (t t' : Tree) (own : List NodeId) (block id landing : NodeId) (label : Name)
    (front moved tail : List NodeId) : Prop where
  owns : own = front ++ id :: (moved ++ landing :: tail)
  nodup : own.Nodup
  spreads : spread t own block id = own
  spreads' : spread t' own block id = front ++ id :: (moved ++ tail)
  outside : inside t own id = []
  holds' : inside t' own id = moved
  leaps : leap? t own id = some label
  enters' : leap? t' own id = none
  shape : ∀ a ∈ front ++ moved ++ tail, t'.shape a = t.shape a
  between : ∀ a ∈ moved, isLabelNamed t label a = false
  lands : isLabelNamed t label landing = true
  plain : ∀ other, isLabelNamed t other id = false ∧ isLabelNamed t' other id = false
  value : ∀ (course : Course) ran, (t'.only? id .condition).any (course.value t' ran) =
    !(t.only? id .condition).any (course.value t ran)

namespace Facing

variable {ran a b : List NodeId} {course : Course}
  (h : Facing t t' own block id landing label front moved tail) {other : Name}

include h

theorem nodup_parts : (front ++ id :: (moved ++ landing :: tail)).Nodup :=
  h.owns ▸ h.nodup

theorem filter_rest : (moved ++ landing :: tail).filter (· != landing) = moved ++ tail := by
  have hnodup := h.nodup_parts
  rw [filter_append, filter_cons_of_neg (by simp), filter_bne (by grind), filter_bne (by grind)]

theorem filter_own : own.filter (· != landing) = spread t' own block id := by
  have hnodup := h.nodup_parts
  rw [h.spreads', ← h.filter_rest, h.owns, filter_append, filter_bne (by grind), filter_cons,
    if_pos (bne_iff_ne.mpr (by grind))]

theorem step_landing : step t own block id course ran (landing :: b) = some (ran, b) := by
  have hlands := h.lands
  have hnodup := h.nodup_parts
  unfold isLabelNamed at hlands
  split at hlands
  · rename_i hshape
    rw [step, if_neg (by grind)]
    simp [Course.ending, kind, hshape, Shape.kind]
  · cases hlands

theorem behind_guard {ahead : List NodeId} (hb : id :: ahead <:+ own) :
    ahead = moved ++ landing :: tail := by
  have hnodup := h.nodup_parts
  have hrest : id :: (moved ++ landing :: tail) <:+ own := h.owns ▸ suffix_append front _
  rcases suffix_or_suffix_of_suffix hb hrest with hsuffix | hsuffix
  · rcases suffix_cons_iff.mp hsuffix with heq | hinner
    · exact (List.cons.inj heq).2
    · exact absurd (hinner.subset mem_cons_self) (by grind)
  · rcases suffix_cons_iff.mp hsuffix with heq | hinner
    · exact (List.cons.inj heq).2.symm
    · exact absurd (hinner.subset mem_cons_self) (nodup_cons.mp (h.nodup.sublist hb.sublist)).1

theorem step_guard : step t own block id course ran (id :: (moved ++ landing :: tail)) =
    some (ran ++ [id], if (t.only? id .condition).any (course.value t ran) then tail else moved ++
      landing :: tail) := by
  rw [step, if_pos rfl, h.leaps, h.outside]
  simp only [land, behind_landing h.between h.lands]
  split <;> rfl

theorem step_guard' : step t' own block id course ran (id :: (moved ++ tail)) =
    some (ran ++ [id], if (t.only? id .condition).any (course.value t ran) then tail else moved ++
      tail) := by
  rw [step, if_pos rfl, h.enters', h.holds', h.value]
  cases (t.only? id .condition).any (course.value t ran) <;> simp

variable (hb : b <:+ own)

include hb

theorem land_suffix (hland : land t own block id other b = some a) : a <:+ own := by
  rw [land, h.spreads] at hland
  cases hfound : behind t other b with
  | none => exact behind_suffix (by simpa [hfound] using hland)
  | some next =>
    cases show next = a by simpa [hfound] using hland
    exact (behind_suffix hfound).trans hb

theorem land_filter (hother : isLabelNamed t other landing = false) :
    land t' own block id other (b.filter (· != landing)) =
      (land t own block id other b).map (·.filter (· != landing)) := by
  have hsame : ∀ list, list <:+ own → behind t' other (list.filter (· != landing)) =
      (behind t other list).map (·.filter (· != landing)) := by
    intro list hlist
    refine behind_filter fun a ha => ?_
    have hmem := hlist.subset ha
    rw [h.owns] at hmem
    split
    · rename_i hne
      by_cases hguard : a = id
      · rw [hguard, (h.plain other).1, (h.plain other).2]
      · rw [isLabelNamed, isLabelNamed, h.shape a (by grind)]
    · rename_i heq
      rwa [show a = landing by simpa using heq]
  rw [land, land, ← h.filter_own, hsame b hb, h.spreads, hsame own (suffix_refl own)]
  cases behind t other b <;> rfl

/-- A step from a place ahead, other than over the label that is gone afterwards, is the same step
afterwards. -/
theorem step_eq (hspares : Spares t course landing (front ++ moved ++ tail))
    (hhead : b.head? ≠ some landing) :
    step t' own block id course ran (b.filter (· != landing)) =
      (step t own block id course ran b).map fun next =>
        (next.1, next.2.filter (· != landing)) := by
  cases b with
  | nil => rfl
  | cons x ahead =>
    have hne : x ≠ landing := fun heq => hhead (by rw [heq]; rfl)
    have hahead := (suffix_cons x ahead).trans hb
    rw [filter_cons, if_pos (bne_iff_ne.mpr hne)]
    by_cases hx : x = id
    · subst hx
      cases h.behind_guard hb
      have hnodup := h.nodup_parts
      rw [h.filter_rest, h.step_guard, h.step_guard', Option.map_some]
      split
      · rw [filter_bne (by grind)]
      · rw [h.filter_rest]
    · have hmem : x ∈ front ++ moved ++ tail := by
        grind [h.owns, hb.subset (mem_cons_self (a := x))]
      rw [step, step, if_neg hx, if_neg hx, kind, kind, h.shape x hmem,
        show course.ending t' ran x = course.ending t ran x by
          rw [Course.ending, Course.ending, h.shape x hmem]]
      cases hends : course.ending t ran x with
      | onward => rfl
      | away => rfl
      | jump other =>
        simp only [h.land_filter hahead (hspares x hmem ran other hends), Option.map_map]
        rfl

theorem step_suffix {ran' b' : List NodeId}
    (hstep : step t own block id course ran b = some (ran', b')) :
    b' <:+ own := by
  cases b with
  | nil => cases hstep
  | cons x ahead =>
    have hahead := (suffix_cons x ahead).trans hb
    by_cases hx : x = id
    · subst hx
      cases h.behind_guard hb
      rw [h.step_guard] at hstep
      cases hstep
      split
      · exact ((suffix_cons landing tail).trans (suffix_append moved _)).trans hahead
      · exact hahead
    · rw [step, if_neg hx] at hstep
      cases hends : course.ending t ran x with
      | onward =>
        rw [hends] at hstep
        cases hstep
        exact hahead
      | away => simp [hends] at hstep
      | jump other =>
        rw [hends] at hstep
        obtain ⟨next, hland, heq⟩ := Option.map_eq_some_iff.mp hstep
        cases heq
        exact h.land_suffix hahead hland

omit hb

variable (hspares : Spares t course landing (front ++ moved ++ tail))

include hspares

theorem runs_after (hrun : Runs t own block id course ran b) :
    b <:+ own ∧ Runs t' own block id course ran (b.filter (· != landing)) := by
  induction hrun with
  | start =>
    rw [h.spreads, h.filter_own]
    exact ⟨suffix_refl own, .start⟩
  | @step ran b ran' b' _ hstep ih =>
    refine ⟨h.step_suffix ih.1 hstep, ?_⟩
    by_cases hhead : b.head? = some landing
    · obtain ⟨rest, rfl⟩ := head?_eq_some_iff.mp hhead
      cases hstep.symm.trans h.step_landing
      simpa using ih.2
    · refine ih.2.step ?_
      rw [h.step_eq ih.1 hspares hhead, hstep, Option.map_some]

omit hspares in
theorem settle (hb : b <:+ own) (hrun : Runs t own block id course ran b) :
    ∃ b', Runs t own block id course ran b' ∧ b' <:+ own ∧ b'.head? ≠ some landing ∧
      b'.filter (· != landing) = b.filter (· != landing) := by
  by_cases hhead : b.head? = some landing
  · obtain ⟨rest, rfl⟩ := head?_eq_some_iff.mp hhead
    refine ⟨rest, hrun.step h.step_landing, (suffix_cons landing rest).trans hb, fun hnext =>
      ?_, by simp⟩
    obtain ⟨more, rfl⟩ := head?_eq_some_iff.mp hnext
    exact absurd (h.nodup.sublist hb.sublist) (by simp)
  · exact ⟨b, hrun, hb, hhead, rfl⟩

theorem runs_before (hrun : Runs t' own block id course ran a) :
    ∃ b, Runs t own block id course ran b ∧ b <:+ own ∧ b.head? ≠ some landing ∧
      b.filter (· != landing) = a := by
  induction hrun with
  | start =>
    have hstart := @Runs.start t own block id course
    rw [h.spreads] at hstart
    exact h.filter_own ▸ h.settle (suffix_refl own) hstart
  | @step ran a ran' a' _ hstep ih =>
    obtain ⟨b, hrun, hb, hhead, rfl⟩ := ih
    rw [h.step_eq hb hspares hhead] at hstep
    obtain ⟨⟨_, b'⟩, hbefore, heq⟩ := Option.map_eq_some_iff.mp hstep
    cases heq
    exact h.settle (h.step_suffix hb hbefore) (hrun.step hbefore)

theorem stops_iff {last : Option NodeId} :
    Stops t own block id course ran last ↔ Stops t' own block id course ran last := by
  have hfirst : ∀ {b : List NodeId}, b.head? ≠ some landing →
    (b.filter (· != landing)).head? = b.head? := by
    intro b hhead
    cases b with
    | nil => rfl
    | cons x b =>
      rw [filter_cons, if_pos (bne_iff_ne.mpr fun heq => hhead (by rw [heq]; rfl))]
      rfl
  constructor
  · rintro ⟨b, hrun, hstep, hlast⟩
    obtain ⟨hb, hrun'⟩ := h.runs_after hspares hrun
    have hhead : b.head? ≠ some landing := by
      intro hhead
      obtain ⟨rest, rfl⟩ := head?_eq_some_iff.mp hhead
      cases hstep.symm.trans h.step_landing
    exact ⟨_, hrun', by rw [h.step_eq hb hspares hhead, hstep]; rfl, (hfirst hhead).trans hlast⟩
  · rintro ⟨a, hrun, hstep, hlast⟩
    obtain ⟨b, hbefore, hb, hhead, rfl⟩ := h.runs_before hspares hrun
    rw [h.step_eq hb hspares hhead, Option.map_eq_none_iff] at hstep
    exact ⟨b, hbefore, hstep, (hfirst hhead).symm.trans hlast⟩

end Facing

/-! ## At a guard -/

/-- A statement of a block tests a guard field of the object itself, has no else, and its branch
starts with a jump. -/
structure Guards (t : Tree) (block id condition body jump : NodeId) (label : Name)
    (inner : List NodeId) : Prop where
  parent : t.parent id = some block
  block : t.kind block = .block
  is_if : t.kind id = .ifStatement
  tests : t.only? id .condition = some condition
  field : ∃ name symbol type, t.shape condition = .memberAccess (.text name) symbol type ∧
    isGuardName name = true
  self : ∃ target, t.only? condition .target = some target ∧ t.kind target = .selfRef
  lacks_else : t.lacks id .elseBranch = true
  enters : t.only? id .thenBranch = some body
  body_kind : t.kind body = .block
  list : (t.node body).kid .statements = .many (jump :: inner)
  jumps : t.shape jump = .goto label

variable {s : Session} {condition body jump : NodeId} {inner : List NodeId}

namespace Guards

variable (h : Guards t block id condition body jump label inner)

include h

theorem listed : t.listed body .statements = jump :: inner :=
  listed_eq_of_many h.list

theorem guardLabel?_eq : guardLabel? t id = .ok (some label) := by
  obtain ⟨name, symbol, type, hshape, hname⟩ := h.field
  obtain ⟨target, htarget, hself⟩ := h.self
  simp [guardLabel?, h.tests, hshape, htarget, hself, hname, h.lacks_else, Tree.child, h.enters,
    Tree.statementsOf, h.body_kind, h.listed, h.jumps, Name.asText, Bind.bind, Except.bind]

theorem facing (hid : t.Standing id) (hahead : Ahead t block id landing label front moved tail)
    (hinverted : Inverted t t' block id front moved tail) (hkind : t'.kind id = .ifStatement) :
    Facing t t' (t.listed block .statements) block id landing label front moved tail := by
  obtain ⟨hblock, hchild⟩ := hid.of_parent h.parent
  have hnodup := (t.listed_sublist block .statements).nodup hblock.intact.nodup
  have hnodup' := hahead.listed ▸ hnodup
  obtain ⟨body', hbody, hbody', _, hlisted⟩ := hinverted.branch
  have hbranch : branch t id = jump :: inner := by rw [branch, h.enters, Option.elim, h.listed]
  have hbranch' : branch t' id = moved := by rw [branch, hbody', Option.elim, hlisted]
  have hapart : ∀ a ∈ jump :: inner, a ∉ t.listed block .statements := by
    intro a ha hmem
    have hbody := mem_children_of_only? h.enters
    have hup :=
      (hid.child hbody).intact.parent_child ((t.listed_sublist _ _).subset (h.listed.symm ▸ ha))
    cases hup.symm.trans (hblock.intact.parent_child ((t.listed_sublist _ _).subset hmem))
    exact hid.intact.not_beneath_of_child hbody (Beneath.of_child hchild)
  have houtside : inside t (t.listed block .statements) id = [] := by
    rw [inside, hbranch, filter_eq_nil_iff]
    simpa using hapart
  have hholds' : inside t' (t.listed block .statements) id = moved := by
    rw [inside, hbranch', filter_eq_self]
    exact fun a ha => decide_eq_true (by grind [hahead.listed])
  exact {
    owns := hahead.listed
    nodup := hnodup
    spreads := by rw [spread_eq hahead.listed hnodup', houtside, nil_append, hahead.listed]
    spreads' := by rw [spread_eq hinverted.statements (by grind), hholds']
    outside := houtside
    holds' := hholds'
    leaps := by simp [leap?, hbranch, hapart jump mem_cons_self, h.jumps]
    enters' := by
      cases moved with
      | nil => rw [leap?, hbranch']; rfl
      | cons a rest => simp [leap?, hbranch', hahead.listed]
    shape := by
      intro a ha
      have hmem : a ∈ t.listed block .statements := by grind [hahead.listed]
      obtain ⟨term, hterm⟩ :=
        Reads.exists_of_intact t.Has (hblock.child ((t.listed_sublist _ _).subset hmem)).intact
      exact congrArg Face.shape
        ((hinverted.same term a (.inl ha) hterm).face_eq.trans hterm.face_eq.symm)
    between := hahead.between
    lands := hahead.lands
    plain := fun _ =>
      ⟨isLabelNamed_of_kind (by rw [h.is_if]; decide), isLabelNamed_of_kind (by rw [hkind]; decide)⟩
    value := by
      obtain ⟨condition', negation, hcondition, hnegation, hnot, hoperand⟩ := hinverted.condition
      cases h.tests.symm.trans hcondition
      obtain ⟨name, symbol, type, hshape, _⟩ := h.field
      intro course ran
      simp [Course.value, hnegation, hcondition, hnot, hoperand, hshape, Name.is] }

theorem turnable : Turnable t id :=
  ⟨condition, body, jump, inner, h.tests, h.enters, h.list⟩

end Guards

/-- Whenever the pass comes to a guard, its block keeps the statements before it and those behind
the first label of the name that it jumps to.  The statements between them move into the guard,
which tests the opposite.  Whatever course things take, as long as nothing else jumps to that label,
the same statements of the block run in the same order, and they stop in the same way.  A guard
without such a label is left as it is. -/
theorem rule_inverts (htidy : s.tree.Tidy) (hid : s.tree.Standing id)
    (hguard : Guards s.tree block id condition body jump label inner) (visit : NodeId → Pass Unit) :
    (∀ landing front moved tail, Ahead s.tree block id landing label front moved tail → ∃ after,
      rule visit id s = descend visit id after ∧
        Inverted s.tree after.tree block id front moved tail ∧ ∀ course,
          Spares s.tree course landing (front ++ moved ++ tail) →
          RunAlike s.tree after.tree block id course) ∧
    ((∀ landing front moved tail, ¬Ahead s.tree block id landing label front moved tail) →
      rule visit id s = descend visit id s) := by
  have hrule : ∀ after, invert id label s = .ok () after →
    rule visit id s = descend visit id after := by
    intro after hrun
    rw [rule, run_tree]
    simp only [hguard.is_if]
    rw [run_tree]
    rw [hguard.guardLabel?_eq]
    change (invert id label >>= fun _ => descend visit id) s = _
    simp only [Bind.bind, EStateM.bind, hrun]
  constructor
  · intro landing front moved tail hahead
    obtain ⟨_, after, hrun, hinverted, hspared, _, _⟩ :=
      (turn_endsUnless htidy hid hguard.parent hahead.listed).ends
      (not_not.mpr hguard.turnable)
    rw [← invert_of_ahead hid hguard.parent hguard.block hahead] at hrun
    refine ⟨after, hrule after hrun, hinverted, fun course hspares => ?_⟩
    have hfacing :=
      hguard.facing hid hahead hinverted ((hspared.keeps.kind_eq id hid.has).trans hguard.is_if)
    refine fun ran => ⟨⟨?_, ?_⟩, fun _ => hfacing.stops_iff hspares⟩
    · rintro ⟨b, hrun⟩
      exact ⟨_, (hfacing.runs_after hspares hrun).2⟩
    · rintro ⟨a, hrun⟩
      exact (hfacing.runs_before hspares hrun).imp fun _ h => h.1
  · intro hnone
    obtain ⟨hblock, hmem⟩ := hid.of_parent hguard.parent
    rw [children_of_sole_role (htidy block hblock.has) (by rw [hguard.block]; rfl)] at hmem
    rcases ahead_or_not s.tree label hmem with ⟨landing, front, moved, tail, h⟩ | ⟨front, rest,
      hlisted, hrest⟩
    · exact absurd h (hnone landing front moved tail)
    · exact hrule s (invert_of_not_ahead hid hguard.parent hguard.block hlisted hrest)

/-- `if (this.$initialized__C$) { goto end; } a; b; end: c;` in the body of a method. -/
def guardSample : Json :=
  let statement (name : String) :=
    Json.nodeOf "ExpressionStatement" [("expr", .nodeOf "Reference" [("name", .text name)])]
  .methodDocument [] [
    .nodeOf "If" [
      ("cond", .nodeOf "MemberAccess" [("target", .nodeOf "SelfRef" []),
        ("name", .text "$initialized__C$")]),
      ("then", .nodeOf "Block" [("statements", .list [.nodeOf "Goto" [("label", .text "end")]])])],
    statement "a", statement "b", .nodeOf "Label" [("name", .text "end")], statement "c"]

def isGuardSample (t : Tree) : Bool :=
  match t.shape (.slot 5), (t.node (.slot 7)).kid .statements, t.shape (.slot 8) with
  | .memberAccess (.text name) _ _, .many list, .goto label =>
    isGuardName name && list == [.slot 8] && isLabelNamed t label (.slot 13)
  | _, _, _ => false

theorem rule_inverts_guardSample : ∃ document after, readDocument guardSample .null = .ok document ∧
    rule (fun _ => pure ()) (.slot 4) ⟨document.tree, .ofVerbosity 0 none⟩ =
      descend (fun _ => pure ()) (.slot 4) after ∧
    Inverted document.tree after.tree (.slot 3) (.slot 4) [] [.slot 9, .slot 11] [.slot 14] ∧
    ∀ holds, RunAlike document.tree after.tree (.slot 3) (.slot 4) ⟨holds, fun _ _ => .onward⟩ := by
  obtain ⟨document, hread, h⟩ := Json.exists_of_holds (show guardSample.holds (fun t =>
    decide (.slot 4 ∈ t.walk t.root ∧ t.parent (.slot 4) = some (.slot 3) ∧
      t.kind (.slot 3) = .block ∧ t.kind (.slot 4) = .ifStatement ∧
      t.only? (.slot 4) .condition = some (.slot 5) ∧ t.only? (.slot 5) .target = some (.slot 6) ∧
      t.kind (.slot 6) = .selfRef ∧ t.lacks (.slot 4) .elseBranch ∧
      t.only? (.slot 4) .thenBranch = some (.slot 7) ∧ t.kind (.slot 7) = .block ∧
      t.listed (.slot 3) .statements = [.slot 4, .slot 9, .slot 11, .slot 13, .slot 14] ∧
      ∀ a ∈ [NodeId.slot 9, .slot 11, .slot 14],
      t.kind a = .expressionStatement) && isGuardSample t) = true by decide +kernel)
  rw [Bool.and_eq_true, decide_eq_true_eq, isGuardSample] at h
  obtain ⟨⟨hwalk, hparent, hblock, hif, htests, htarget, hself, helse, henters, hbody, hlisted,
    hkinds⟩, h⟩ := h
  split at h
  · rename_i name symbol type list label hshape hlist hjump
    simp only [Bool.and_eq_true, beq_iff_eq] at h
    obtain ⟨⟨hname, rfl⟩, hlands⟩ := h
    have hsound := readDocument_sound hread
    have hguard : Guards document.tree (.slot 3) (.slot 4) (.slot 5) (.slot 7) (.slot 8) label [] :=
      ⟨hparent, hblock, hif, htests, ⟨name, symbol, type, hshape, hname⟩, ⟨_, htarget, hself⟩,
        helse, henters, hbody, hlist, hjump⟩
    obtain ⟨after, hrule, hinverted, hruns⟩ :=
      (rule_inverts (s := ⟨document.tree, .ofVerbosity 0 none⟩) hsound.tidy
        (hsound.standing.beneath (beneath_of_mem_walk hwalk)) hguard fun _ =>
        pure ()).1 (.slot 13) [] [.slot 9, .slot 11] [.slot 14] ⟨hlisted, fun a ha =>
        isLabelNamed_of_kind (by rw [hkinds a (by grind)]; decide), hlands⟩
    refine ⟨document, after, hread, hrule, hinverted, fun holds =>
      hruns ⟨holds, fun _ _ => .onward⟩ ?_⟩
    intro a ha ran other hends
    have hkind := hkinds a ha
    rw [Course.ending] at hends
    split at hends
    · cases hends
    · rename_i hgoto
      rw [Tree.kind, hgoto] at hkind
      cases hkind
    · cases hends
  · cases h

end UnitySharp.FieldGuards
