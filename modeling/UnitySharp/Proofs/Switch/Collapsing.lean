import UnitySharp.Proofs.Document.Reading
import UnitySharp.Proofs.Pass.Rewriting
import UnitySharp.Proofs.Pass.Settling

/-!
# Switches with only a default

The subject of such a switch goes into the declaration of a local variable directly before the
statements of the default, which stay as they are.  A block with a case is no such block, so none is
collapsed that might have been rebuilt.
-/

namespace UnitySharp

open UnitySharp.Tree Pass List

variable {t t' : Tree} {temporary symbol : Symbol} {rest body ids : List NodeId}
  {a id assignment first p : NodeId} {name : Name} {α : Type} {known : NodeId → Prop} {term : Term}

namespace Tree

variable {statement : NodeId}

/-! ## The body of a default -/

/-- The statements of a default among those after the assignment of the temporary: all of them but
for a label at the end and a jump to that label directly before it. -/
inductive IsDefaultBody (t : Tree) : List NodeId → List NodeId → Prop where
  | plain {rest : List NodeId} (h : ∀ last, rest.getLast? = some last → t.labelName? last = none) :
      IsDefaultBody t rest rest
  | labelled {body : List NodeId} {last : NodeId} {name : Name}
      (hlabel : t.labelName? last = some name)
      (hjump : ∀ jump, body.getLast? = some jump → t.isGotoTo name jump = false) :
      IsDefaultBody t (body ++ [last]) body
  | jumping {body : List NodeId} {jump last : NodeId} {name : Name}
      (hlabel : t.labelName? last = some name) (hjump : t.isGotoTo name jump = true) :
      IsDefaultBody t (body ++ [jump, last]) body

theorem splitEndLabel_cases (t : Tree) (rest : List NodeId) :
    (t.splitEndLabel rest = (rest, none) ∧ ∀ last, rest.getLast? = some last →
      t.labelName? last = none) ∨ ∃ before last name, rest = before ++ [last] ∧
        t.labelName? last = some name ∧ t.splitEndLabel rest = (before, some name) := by
  unfold splitEndLabel
  rcases rest.eq_nil_or_concat with rfl | ⟨before, last, rfl⟩
  · left
    exact ⟨rfl, fun last hlast => absurd hlast (by simp)⟩
  · rw [concat_eq_append, getLast?_append, getLast?_singleton, Option.some_or, Option.map_some,
      dropLast_concat]
    cases hshape : t.shape last with
    | label name =>
      right
      exact ⟨before, last, name, rfl, by rw [labelName?, hshape], rfl⟩
    | _ =>
      left
      refine ⟨rfl, fun other hother => ?_⟩
      rw [Option.some.inj hother] at hshape
      rw [labelName?, hshape]

theorem isDefaultBody_defaultBody (t : Tree) (rest : List NodeId) :
    t.IsDefaultBody rest (t.defaultBody rest) := by
  unfold defaultBody
  rcases t.splitEndLabel_cases rest with ⟨hsplit, hlast⟩ | ⟨before, last, name, rfl, hlabel, hsplit⟩
  · rw [hsplit]
    exact .plain hlast
  · rw [hsplit]
    dsimp only
    rcases before.eq_nil_or_concat with rfl | ⟨body, jump, rfl⟩
    · exact .labelled hlabel fun jump hjump => absurd hjump (by simp)
    · rw [concat_eq_append, getLast?_append, getLast?_singleton, Option.some_or]
      dsimp only
      split
      · rename_i hjump
        rw [dropLast_concat, append_assoc]
        exact .jumping hlabel hjump
      · rename_i hjump
        refine .labelled hlabel fun other hother => ?_
        rw [getLast?_append, getLast?_singleton, Option.some_or] at hother
        rw [← Option.some.inj hother]
        exact Bool.eq_false_iff.mpr hjump

theorem defaultBody_subset (t : Tree) (rest : List NodeId) :
    ∀ a ∈ t.defaultBody rest, a ∈ (t.splitEndLabel rest).1 := by
  intro a ha
  unfold defaultBody at ha
  split at ha
  · rename_i hsplit
    rw [hsplit]
    exact ha
  · rename_i hsplit
    rw [hsplit]
    split at ha
    · split at ha
      · exact dropLast_subset _ ha
      · exact ha
    · exact ha

theorem defaultBody_sublist (t : Tree) (statements : List NodeId) :
    (t.defaultBody statements).Sublist statements := by
  have hbody := t.isDefaultBody_defaultBody statements
  generalize t.defaultBody statements = body at hbody
  cases hbody with
  | plain => exact List.Sublist.refl _
  | labelled => exact sublist_append_left _ _
  | jumping => exact sublist_append_left _ _

/-! ## What the test for a mere default says -/

theorem anyM_eq_false {ε : Type} {holds : α → Except ε Bool} {items : List α}
    (h : items.anyM holds = .ok false) :
    ∀ item ∈ items, holds item = .ok false := by
  induction items with
  | nil => exact fun item hitem => absurd hitem (by simp)
  | cons first rest ih =>
    rw [anyM_cons] at h
    obtain ⟨found, hfound, h⟩ := Except.bind_eq_ok h
    cases found with
    | true => exact absurd h (by simp [pure, Except.pure])
    | false =>
      intro item hitem
      rcases mem_cons.mp hitem with rfl | hitem
      · exact hfound
      · exact ih h item hitem

theorem assignmentOf?_eq_some : t.assignmentOf? statement = some assignment ↔
    t.kind statement = .expressionStatement ∧ t.only? statement .expression = some assignment ∧
      (t.shape assignment).isAssignment = true := by
  unfold assignmentOf?
  split
  · rename_i hkind
    rw [Option.filter_eq_some_iff]
    exact ⟨fun h => ⟨hkind, h⟩, fun h => h.2⟩
  · rename_i hkind
    exact ⟨fun h => absurd h (by simp), fun h => absurd h.1 hkind⟩

theorem switchTemporary?_ok (h : t.switchTemporary? statement = .ok (some symbol)) :
    ∃ assignment, t.assignmentOf? statement = some assignment := by
  unfold switchTemporary? at h
  split at h
  · rename_i left hleft
    obtain ⟨assignment, hassigns, _⟩ := Option.bind_eq_some_iff.mp hleft
    exact ⟨assignment, hassigns⟩
  · cases h

theorem isOnlyDefault_ok (h : t.isOnlyDefault temporary rest = .ok true) :
    (∀ statement ∈ rest, t.switchCase? temporary statement = .ok none) ∧
      (∀ statement ∈ (t.splitEndLabel rest).1, t.mentions temporary statement = false) ∧
        ∀ name, (t.splitEndLabel rest).2 = some name →
          t.jumpsOnlyAtEnd name (t.splitEndLabel rest).1 = true := by
  unfold isOnlyDefault at h
  cases hsplit : t.splitEndLabel rest with
  | mk before label =>
    rw [hsplit] at h
    obtain ⟨hasCase, hcase, h⟩ := Except.bind_eq_ok h
    have h := Except.ok.inj h
    rw [Bool.and_eq_true, Bool.and_eq_true, Bool.not_eq_true', Bool.not_eq_true'] at h
    obtain ⟨⟨hnone, hjumps⟩, hmentions⟩ := h
    rw [hnone] at hcase
    refine ⟨?_, ?_, ?_⟩
    · intro statement hstatement
      have hfalse := anyM_eq_false hcase statement hstatement
      obtain ⟨read, hread, hsome⟩ := Except.bind_eq_ok hfalse
      cases read with
      | none => exact hread
      | some read => exact absurd (Except.ok.inj hsome) (by simp)
    · intro statement hstatement
      rw [any_eq_false] at hmentions
      exact Bool.eq_false_iff.mpr (hmentions statement hstatement)
    · intro name hname
      dsimp only at hname
      rw [hname] at hjumps
      exact hjumps

theorem self_mem_walk (t : Tree) (id : NodeId) : id ∈ t.walk id := by
  rw [walk, ← length_preorderWithin, preorderWithin, length_cons, walkStack]
  exact mem_cons_self

/-- Beneath the statements of a mere default nothing jumps to the label after them. -/
theorem not_isGotoTo_of_onlyDefault (h : t.isOnlyDefault temporary rest = .ok true) {last : NodeId}
    (hlast : rest.getLast? = some last) (hlabel : t.labelName? last = some name)
    (hstatement : statement ∈ t.defaultBody rest) (hwalk : a ∈ t.walk statement) :
      t.isGotoTo name a = false := by
  obtain ⟨_, _, hjumps⟩ := isOnlyDefault_ok h
  rcases t.splitEndLabel_cases rest with ⟨_, hnone⟩ | ⟨before, other, found, rfl, hfound, hsplit⟩
  · rw [hnone last hlast] at hlabel
    cases hlabel
  · rw [getLast?_append, getLast?_singleton, Option.some_or] at hlast
    rw [Option.some.inj hlast, hlabel] at hfound
    cases hfound
    have hjumps := hjumps name (by rw [hsplit])
    rw [hsplit] at hjumps
    apply Bool.eq_false_iff.mpr
    intro hgoto
    -- A jump beneath the body would come on top of one at the end.
    have hfound : ∀ front : List NodeId, statement ∈ front → a ∈ front.flatMap (t.gotosTo name) :=
      fun front hfront =>
      mem_flatMap.mpr ⟨statement, hfront, mem_filter.mpr ⟨hwalk, hgoto⟩⟩
    have hbefore : statement ∈ before := by
      have hmem := t.defaultBody_subset (before ++ [other]) statement hstatement
      rwa [hsplit] at hmem
    unfold jumpsOnlyAtEnd at hjumps
    dsimp only at hjumps
    split at hjumps
    · rename_i hempty
      have hmem := hfound before hbefore
      rw [hempty] at hmem
      exact absurd hmem (by simp)
    · rename_i jump hone
      have hjump := eq_of_beq hjumps
      have hself : t.isGotoTo name jump = true := by
        have hmem : jump ∈ before.flatMap (t.gotosTo name) := by simp [hone]
        obtain ⟨_, _, hfilter⟩ := mem_flatMap.mp hmem
        exact (mem_filter.mp hfilter).2
      unfold defaultBody at hstatement
      rw [hsplit] at hstatement
      dsimp only at hstatement
      rw [hjump] at hstatement
      dsimp only at hstatement
      rw [if_pos hself] at hstatement
      have hcount : 2 ≤ (before.flatMap (t.gotosTo name)).length := by
        rw [← dropLast_append_getLast? jump hjump, flatMap_append, length_append]
        have hfirst := length_pos_of_mem (hfound before.dropLast hstatement)
        have hsecond : jump ∈ [jump].flatMap (t.gotosTo name) := by
          simpa [gotosTo, hself] using t.self_mem_walk jump
        have hlength := length_pos_of_mem hsecond
        omega
      rw [hone] at hcount
      exact absurd hcount (by simp)
    · exact absurd hjumps (by simp)

theorem exists_case_of_leadingCases {second third : NodeId} {others : List NodeId}
    {cases : List SwitchCase}
    (h : t.leadingCases temporary (second :: third :: others).dropLast = .ok cases)
    (hnonempty : ¬cases.isEmpty = true) :
    ∃ read, t.switchCase? temporary second = .ok (some read) := by
  rw [dropLast_cons_cons, leadingCases] at h
  obtain ⟨found, hfound, h⟩ := Except.bind_eq_ok h
  cases found with
  | none =>
    cases h
    exact absurd rfl hnonempty
  | some read => exact ⟨read, hfound⟩

theorem exists_case_of_lowered {block : NodeId} {lowered : LoweredSwitch}
    (hlisted : t.listed block .statements = first :: rest)
    (hsets : t.switchTemporary? first = .ok (some temporary))
    (h : t.loweredSwitch? block = .ok (some lowered)) :
    ∃ statement ∈ rest, ∃ read, t.switchCase? temporary statement = .ok (some read) := by
  unfold loweredSwitch? at h
  rw [hlisted] at h
  split at h
  · rename_i second third others heq
    cases heq
    rw [hsets] at h
    dsimp only [bind, Except.bind] at h
    split at h
    · rename_i found endLabel hfound hlabel
      cases hfound
      unfold loweredOver? at h
      obtain ⟨cases, hcases, h⟩ := Except.bind_eq_ok h
      split at h
      · cases h
      · rename_i hnonempty
        exact ⟨second, mem_cons_self, exists_case_of_leadingCases hcases hnonempty⟩
    · cases h
  · cases h

end Tree

/-! ## Lists after an exchange -/

namespace Tree

open List

variable {old : NodeId} {role : Role} {before gone after tops : List NodeId} {news : List Draft}
  {parts : List Part}

theorem exists_insertBefore {c : NodeId} {prior : List NodeId} (new : Draft) (hlaid : t.Laid p)
    (hkind : t.kind p = .block) (hkid : (t.node p).kid .statements = .many prior)
    (hc : c ∈ t.children p)
    (hparent : t.parent c = some p) : ∃ id t', t.insertBefore c new = .ok (id, t') := by
  rw [Tree.Laid, hkind] at hlaid
  obtain ⟨entry, hkids, hrole⟩ : ∃ entry, (t.node p).kids = [entry] ∧
    entry.1 = Role.statements := by
    simpa [Tree.roles, NodeKind.layout, map_eq_singleton_iff] using hlaid
  obtain ⟨role, occupants⟩ := entry
  cases hrole
  have hoccupants : occupants = .many prior := by simpa [Node.kid, hkids, kidsAt] using hkid
  subst hoccupants
  have hmem : c ∈ prior := by
    simpa [Tree.children, Node.children, hkids, allKids, Occupants.toList] using hc
  obtain ⟨index, hindex⟩ := Option.ne_none_iff_exists'.mp fun hnone =>
    (idxOf?_eq_none_iff.mp hnone) hmem
  have hplace : t.placeInList c = .ok (p, .statements, index) := by
    rw [placeInList, Tree.place, hparent]
    dsimp only
    rw [hkids, placeAmong, hindex]
  rw [insertBefore, hplace]
  exact ⟨_, _, rfl⟩

end Tree

/-! ## The collapsed block -/

namespace Switch

open List

variable {amiss : Prop} {s : Session} {block subject declaration : NodeId} {look : NodeId → Term}
  {type : Option Ty} {position : Option Position} {line : String}

/-- The variable that takes the place of a temporary is declared by a new node, and starts with the
subject, which is as it was. -/
structure Surfaces (t t' : Tree) (temporary : Symbol) (subject declaration : NodeId) : Prop where
  fresh : ¬t.Has declaration
  declares : ∃ symbol : Symbol, symbol.kind = .localVariable ∧
    symbol.name = temporary.name.mapText surfacedName ∧
    t'.shape declaration = .declaration symbol.name (some symbol)
  initialized : t'.only? declaration .initializer = some subject
  subject_same : ∀ term, t.Reads t.Has term subject → t'.Reads t.Has term subject

/-- The declaration stands directly before the statements of the default: before the block that has
them if that is one statement of several, otherwise before a new block with them. -/
inductive Placed (t t' : Tree) (block declaration : NodeId) (body : List NodeId) : Prop where
  | before {holder : NodeId} {earlier later : List NodeId} (hparent : t.parent block = some holder)
      (hkind : t.kind holder = .block)
        (hlisted : t.listed holder .statements = earlier ++ block :: later)
      (hplaced : t'.listed holder .statements = earlier ++ declaration :: block :: later)
      (hbody : t'.listed block .statements = body) : Placed t t' block declaration body
  | within {inner : NodeId}
      (hkind : ∀ holder, t.parent block = some holder → t.kind holder ≠ .block)
      (hplaced : t'.listed block .statements = [declaration, inner])
      (hinner : t'.kind inner = .block) (hbody : t'.listed inner .statements = body) :
      Placed t t' block declaration body

structure SubjectTaken (t t' : Tree) (block subject : NodeId) (rest : List NodeId) : Prop where
  undisturbed : ∀ D, Spared D t t'
  node_block : t'.node block = t.node block
  standing : t'.Standing subject
  parentless : t'.parent subject = none
  off : ¬t'.Beneath subject block
  holder : ∀ p, t.parent block = some p → t'.node p = t.node p
  reads : ∀ known term, ∀ a ∈ subject :: rest, t.Reads known term a → t'.Reads known term a

theorem remove_subject_yields {post : Unit → Session → Prop} (hcoined : ∀ D, Spared D t s.tree)
    (hnode : ∀ a, s.tree.node a = t.node a) (htidy : t.Tidy) (hblock : t.Standing block)
    (hlisted : t.listed block .statements = first :: rest)
    (hassignment : t.only? first .expression = some assignment)
    (hsubject : t.only? assignment .right = some subject)
    (h : ∀ after, SubjectTaken t after.tree block subject rest → post () after) :
    Yields (Pass.remove subject) s post := by
  have hsub : (first :: rest).Sublist (t.children block) :=
    hlisted ▸ t.listed_sublist block .statements
  have hfirst : first ∈ t.children block := hsub.subset mem_cons_self
  have hassignment := mem_children_of_only? hassignment
  have hsubject := mem_children_of_only? hsubject
  have hassigned : t.Within block assignment :=
    hblock.intact.within_of_child hfirst (Beneath.of_child hassignment)
  have hinside : t.Within block subject := hassigned.trans hblock.intact (Beneath.of_child hsubject)
  have hassignmentS := hblock.beneath hassigned.1
  have hsubjectS := hassignmentS.child hsubject
  have hkeeps := (hcoined fun _ => False).keeps
  refine remove_yields ((hcoined fun _ => False).tidy htidy) (hsubjectS.of_undisturbed hcoined)
    fun p after hparent hedited => h after ?_
  have hp : p = assignment := by
    rw [parent, hnode, ← parent, hassignmentS.intact.parent_child hsubject] at hparent
    exact (Option.some.inj hparent).symm
  subst hp
  have hboth : ∀ D, Spared D t after.tree := fun D => (hcoined D).trans (hedited.undisturbed D)
    fun _ _ hD => hD
  have hframe : ∀ a, t.Has a → a ≠ subject → a ≠ p → after.tree.node a = t.node a :=
    fun a ha hne hne' =>
    (hedited.frame a (hkeeps.has ha) not_drawn_nil (by simpa using hne) hne').trans (hnode a)
  refine ⟨hboth, hframe block hblock.has hinside.2.symm hassigned.2.symm,
    hsubjectS.of_undisturbed hboth, hedited.cut (by simp) not_drawn_nil, fun hbelow => ?_, ?_, ?_⟩
  · have hback := Spared.beneath_of_undisturbed hboth hsubjectS hblock.has hbelow
    exact Within.not_above hsubjectS.intact hback hinside
  · intro up hup
    obtain ⟨hupS, hchild⟩ := hblock.of_parent hup
    have habove : ∀ a, t.Within block a → up ≠ a := by
      rintro a hwithin rfl
      exact hupS.intact.not_beneath_of_child hchild hwithin.1
    exact hframe up hupS.has (habove subject hinside) (habove p hassigned)
  · intro known term a ha hreads
    apply hedited.reads_outside (hreads.transfer_node (fun b hb => hkeeps.has hb) fun b _ =>
      hnode b)
    intro b hbelow
    refine ⟨not_drawn_nil, ?_⟩
    rintro rfl
    have hbelow := Spared.beneath_of_undisturbed hcoined (a := a) ?_ hassignmentS.has hbelow
    · rcases mem_cons.mp ha with rfl | ha
      · exact hassignmentS.intact.not_beneath_of_child hsubject hbelow
      · have hne : first ≠ a := by
          rintro rfl
          have hnodup := hsub.nodup hblock.intact.nodup
          exact (nodup_cons.mp hnodup).1 ha
        exact hblock.intact.siblings_apart hfirst (hsub.subset (mem_cons_of_mem _ ha)) hne
          (Beneath.of_child hassignment) hbelow
    · rcases mem_cons.mp ha with rfl | ha
      · exact hsubjectS
      · exact hblock.child (hsub.subset (mem_cons_of_mem _ ha))

theorem reads_declaration (horigin : (look subject).origin = some subject)
    (h : t.Reads known (Draft.term look (.declaration symbol type (some (.kept subject)) position))
      declaration) :
    ¬known declaration ∧ t.shape declaration = .declaration symbol.name (some symbol) ∧
      t.only? declaration .initializer = some subject ∧ t.Reads known (look subject) subject := by
  simp only [Draft.declaration, Draft.term] at h
  obtain ⟨_, hnew, hface, _⟩ := reads_node_iff.mp h
  have hkid :
      kidsAt .initializer (Draft.termKids look [(.typeRef, .ofOption (type.map Draft.typeRef)),
        (.initializer, .ofOption (some (.kept subject)))]) = .one (look subject) := by
    cases type <;> rfl
  obtain ⟨c, hc, hread⟩ := h.only_of_kid hkid
  have heq : subject = c := ((hread.originates subject).mp horigin).2
  refine ⟨fun hknown => ?_, congrArg Face.shape hface, heq ▸ hc, heq ▸ hread⟩
  exact absurd ((hnew declaration).mpr ⟨hknown, rfl⟩) (by simp)

theorem plain_declaration :
    (Draft.declaration symbol type (some (.kept subject)) position).Plain := by
  cases type <;> simp [Draft.declaration, Draft.typeRef, Occupants.ofOption, Draft.Plain,
    Draft.PlainKids, Draft.PlainOccupants]

theorem eq_of_reads_known (h : List.Forall₂ (t.Reads known) (body.map look) ids)
    (horigin : ∀ a ∈ body, (look a).origin = some a) : ids = body := by
  induction body generalizing ids with
  | nil =>
    cases h
    rfl
  | cons a body ih =>
    cases h with
    | cons hread hrest =>
      have heq := (hread.originates a).mp (horigin a mem_cons_self)
      rw [ih hrest fun b hb => horigin b (mem_cons_of_mem _ hb), heq.2]

theorem not_drawn_parentless {kept : List NodeId} (hp : t.Standing p)
    (hkept : kept.Sublist (t.children p)) (hnone : t.parent subject = none) :
    ¬t.Drawn kept subject := by
  rintro ⟨top, htop, hbelow⟩
  have hchild := hkept.subset htop
  have heq : subject = top := (hp.child hchild).intact.eq_of_parent_none hbelow hnone
  rw [heq, hp.intact.parent_child hchild] at hnone
  cases hnone

theorem not_drawn_beneath_parentless {b : NodeId} {kept : List NodeId} (hp : t.Standing p)
    (hkept : kept.Sublist (t.children p)) (hsubject : t.Standing subject)
    (hnone : t.parent subject = none)
    (hoff : ¬t.Beneath subject p) (hbelow : t.Beneath subject b) : ¬t.Drawn kept b := by
  rintro ⟨top, htop, hdrawn⟩
  have hchild := hkept.subset htop
  rcases (hp.child hchild).intact.comparable hsubject.intact hdrawn hbelow with habove | habove
  · exact not_drawn_parentless hp hkept hnone ⟨top, htop, habove⟩
  · apply hoff
    apply hsubject.intact.beneath_holder_of_child hp.intact hchild habove
    rintro rfl
    rw [hp.intact.parent_child hchild] at hnone
    cases hnone

/-- A block is about to be filled anew with statements of its own, and a subtree stands on its
own. -/
structure Prepared (known : NodeId → Prop) (look : NodeId → Term) (t : Tree)
    (block subject : NodeId) (body : List NodeId) : Prop where
  tidy : t.Tidy
  standing : t.Standing block
  sublist : body.Sublist (t.listed block .statements)
  subject_standing : t.Standing subject
  subject_parentless : t.parent subject = none
  subject_off : ¬t.Beneath subject block
  known_has : ∀ a, known a → t.Has a
  reads : ∀ a ∈ subject :: body, t.Reads known (look a) a

theorem Prepared.kept (h : Prepared known look t block subject body) :
    body.Sublist (t.children block) :=
  h.sublist.trans (t.listed_sublist block .statements)

structure BodyLeft (known : NodeId → Prop) (look : NodeId → Term) (t t' : Tree)
    (block subject : NodeId) (body : List NodeId) :
    Prop extends Prepared known look t' block subject body where
  spared : Spared (t.Drawn body) t t'
  parent_eq : t'.parent block = t.parent block
  holder : ∀ p, t.parent block = some p → t'.node p = t.node p
  statements : t'.listed block .statements = body

theorem refill_body_left {filled : Tree} (h : Prepared known look s.tree block subject body)
    (hrefill : s.tree.refill block .statements (body.map .kept) = .ok (ids, filled)) :
    BodyLeft known look s.tree filled block subject body := by
  have hblock := h.standing
  have hsupplied : s.tree.Supplied block (s.tree.listed block .statements) body
    (body.map .whole) := by
    simpa using Supplied.of_moved [] body _ hblock.intact (by simp) nodup_nil h.kept fun k hk =>
      h.sublist.subset hk
  obtain ⟨hedited, hstatements, hreads⟩ := refill_refilled hblock hsupplied hrefill
  have hfree := not_drawn_parentless hblock h.kept h.subject_parentless
  refine ⟨⟨hedited.spared.tidy h.tidy, hedited.standing_parent hblock,
    hstatements ▸ List.Sublist.refl _, hedited.spared.standing subject h.subject_standing hfree,
    hedited.spared.top subject h.subject_standing hfree h.subject_parentless, ?_,
    fun a ha => hedited.spared.keeps.has (h.known_has a ha), ?_⟩, hedited.spared, hedited.parent_eq,
      ?_, hstatements⟩
  · intro hbelow
    rcases hedited.spared.beneath subject block h.subject_standing hfree hbelow
      hblock.has with hback | hdrawn
    · exact h.subject_off hback
    · exact hedited.free hdrawn
  · rw [forall_mem_cons]
    constructor
    · apply hedited.reads_outside (h.reads subject mem_cons_self)
      intro b hbelow
      refine ⟨not_drawn_beneath_parentless hblock h.kept h.subject_standing h.subject_parentless
        h.subject_off hbelow, ?_⟩
      rintro rfl
      exact h.subject_off hbelow
    · exact fun a ha => hreads known _ h.known_has a ha (h.reads a (mem_cons_of_mem _ ha))
  · intro p hp
    obtain ⟨hpS, hchild⟩ := hblock.of_parent hp
    apply hedited.frame p hpS.has
    · rintro ⟨top, htop, hbelow⟩
      exact hblock.intact.not_beneath_of_child (h.kept.subset htop)
        (hbelow.trans (Beneath.of_child hchild))
    · intro hmem
      have hup := (s.tree.listed_sublist block .statements).subset hmem
      exact hblock.intact.not_beneath_of_child hup (Beneath.of_child hchild)
    · rintro rfl
      exact hpS.intact.not_own_child hchild

structure Settled (known : NodeId → Prop) (look : NodeId → Term) (t t' : Tree)
    (block subject : NodeId) (body : List NodeId) (declared : Draft) : Prop where
  spared : Spared (t.Drawn (subject :: body)) t t'
  placed : ∃ declaration, Placed t t' block declaration body ∧
    t'.Reads known (Draft.term look declared) declaration
  body_reads : ∀ a ∈ body, t'.Reads known (look a) a

theorem collapse_before {holder : NodeId} (h : Prepared known look s.tree block subject body)
    (hparent : s.tree.parent block = some holder) (hkind : s.tree.kind holder = .block)
    (hmany : ¬amiss → (s.tree.node block).kid .statements = .many (first :: rest))
    (hlist : ¬amiss → ∃ list, (s.tree.node holder).kid .statements = .many list) :
    EndsUnless amiss (do
        let _ ← Pass.refill block .statements (body.map .kept)
        let _ ← Pass.insertBefore block (.declaration symbol type (some (.kept subject)) position)
        Pass.say 3 line) s fun _ after =>
      Settled known look s.tree after.tree block subject body
        (.declaration symbol type (some (.kept subject)) position) := by
  obtain ⟨hholder, hchild⟩ := h.standing.of_parent hparent
  refine EndsUnless.bind (EndsUnless.edit (fun ids filled hrefill => ?_) fun hnone => by_contra
    fun hfine => ?_)
  swap
  · obtain ⟨ids, filled, hrefill⟩ := exists_refill (body.map .kept) (hmany hfine) mem_cons_self
    exact hnone _ hrefill
  have hleft := refill_body_left h hrefill
  have hparentF : filled.parent block = some holder := hleft.parent_eq.trans hparent
  refine EndsUnless.bind (EndsUnless.edit (fun declaration inserted hinsert => EndsUnless.say
    fun _ => ?_) fun hnone =>
    by_contra fun hfine => ?_)
  swap
  · obtain ⟨list, hlist⟩ := hlist hfine
    obtain ⟨hholderF, hchildF⟩ := hleft.standing.of_parent hparentF
    have hnodeF := hleft.holder holder hparent
    obtain ⟨id, inserted, hinsert⟩ :=
      exists_insertBefore (.declaration symbol type (some (.kept subject)) position)
      (hleft.tidy holder hholderF.has) (by rw [kind, shape, hnodeF]; exact hkind)
        (by rw [hnodeF, hlist]) hchildF hparentF
    exact hnone _ hinsert
  obtain ⟨p, role, earlier, later, hp, hmany, hexchanged⟩ := insertBefore_place hleft.tidy hinsert
  obtain rfl : p = holder := Option.some.inj (hp.symm.trans hparentF)
  have hnode := hleft.holder p hparent
  have hrole : role = .statements := by
    rw [hnode] at hmany
    apply role_of_block (h.tidy p hholder.has) hkind (c := block)
    rw [hmany]
    simp [Occupants.toList]
  subst hrole
  obtain ⟨hpF, hchildF⟩ := hleft.standing.of_parent hp
  have hsupplied : filled.Supplied p [] [subject]
      (partsOfAll [.declaration symbol type (some (.kept subject)) position]) := by
    have hoff' : ¬filled.Beneath subject p := fun hbelow =>
      hleft.subject_off (hbelow.trans (Beneath.of_child hchildF))
    simpa [partsOfAll, declaration_parts] using Supplied.of_moved [subject] [] [] hpF.intact
      (by simpa using ⟨hleft.subject_standing.intact, hleft.subject_parentless, hoff'⟩) (by simp)
        (nil_sublist _)
      (by simp)
  have hlaid : AllLaid filled [.declaration symbol type (some (.kept subject)) position] :=
    ⟨declaration_laid _ _ _ _ trivial, trivial⟩
  have hedited := hexchanged.edited hpF hlaid hsupplied
  have hlisted : s.tree.listed p .statements = earlier ++ block :: later := by
    rw [listed, Node.kidList, Node.kid, ← hnode, hmany]
    rfl
  refine ⟨?_, ⟨declaration, .before hparent hkind hlisted ?_ ?_, ?_⟩, ?_⟩
  · refine (hleft.spared.mono fun a _ => ?_).trans hedited.spared fun a ha => ?_
    · rintro ⟨top, htop, hbelow⟩
      exact ⟨top, mem_cons_of_mem _ htop, hbelow⟩
    · rintro ⟨top, htop, hbelow⟩
      rw [mem_singleton.mp htop] at hbelow
      have hfree := not_drawn_parentless h.standing h.kept h.subject_parentless
      rcases hleft.spared.beneath subject a h.subject_standing hfree hbelow ha with hback | ⟨top,
        htop, hback⟩
      · exact ⟨subject, mem_cons_self, hback⟩
      · exact ⟨top, mem_cons_of_mem _ htop, hback⟩
  · simpa using hexchanged.listed_eq hpF hlaid hsupplied
  · rw [← hleft.statements, listed, listed, hedited.frame block hleft.standing.has]
    · rintro ⟨top, htop, hbelow⟩
      rw [mem_singleton.mp htop] at hbelow
      exact hleft.subject_off hbelow
    · simp
    · rintro rfl
      exact hpF.intact.not_own_child hchildF
  · have hlooked : Looked filled known look
        (partsOfAll [.declaration symbol type (some (.kept subject)) position]) := by
      have hwhole : Looked filled known look ([subject].map .whole) :=
        looked_wholes hleft.known_has (by simpa using hleft.subject_standing.intact)
          (by simpa using hleft.reads subject)
      simpa [partsOfAll, declaration_parts] using hwhole
    have hreads := hexchanged.reads hpF ⟨plain_declaration, trivial⟩ hlaid hsupplied hlooked
    cases hreads with
    | cons hfirst _ => exact hfirst
  · intro a ha
    apply hedited.reads_outside (hleft.reads a (mem_cons_of_mem _ ha))
    intro b hbelow
    constructor
    · rintro ⟨top, htop, hdrawn⟩
      rw [mem_singleton.mp htop] at hdrawn
      exact not_drawn_beneath_parentless hleft.standing hleft.kept hleft.subject_standing
        hleft.subject_parentless hleft.subject_off hdrawn ⟨a, ha, hbelow⟩
    · rintro rfl
      exact hleft.standing.intact.not_beneath_of_child (hleft.kept.subset ha)
        (hbelow.trans (Beneath.of_child hchildF))

theorem collapse_within (h : Prepared known look s.tree block subject body)
    (hkind : ∀ holder, s.tree.parent block = some holder → s.tree.kind holder ≠ .block)
    (horigin : ∀ a ∈ body, (look a).origin = some a)
    (hmany : ¬amiss → (s.tree.node block).kid .statements = .many (first :: rest)) :
    EndsUnless amiss (do
        let _ ← Pass.refill block .statements
          [.declaration symbol type (some (.kept subject)) position, .block (body.map .kept) none]
        Pass.say 3 line) s fun _ after =>
      Settled known look s.tree after.tree block subject body
        (.declaration symbol type (some (.kept subject)) position) := by
  have hparts : partsOfAll [.declaration symbol type (some (.kept subject)) position,
      .block (body.map .kept) none] = ([subject] ++ body).map .whole := by
    simp [partsOfAll, declaration_parts, Draft.block]
  have hsupplied : s.tree.Supplied block (s.tree.listed block .statements) ([subject] ++ body)
      (partsOfAll [.declaration symbol type (some (.kept subject)) position,
        .block (body.map .kept) none]) := by
    rw [hparts]
    exact Supplied.of_moved [subject] body _ h.standing.intact
      (by simpa using ⟨h.subject_standing.intact, h.subject_parentless, h.subject_off⟩) (by simp)
        h.kept
      fun k hk => h.sublist.subset hk
  have hlaid : AllLaid s.tree
      [.declaration symbol type (some (.kept subject)) position, .block (body.map .kept) none] := by
    refine ⟨declaration_laid _ _ _ _ trivial, ?_, trivial⟩
    simp [Draft.block, Shape.kind, NodeKind.layout]
  have hlooked : Looked s.tree known look
      (partsOfAll [.declaration symbol type (some (.kept subject)) position,
        .block (body.map .kept) none]) := by
    rw [hparts]
    apply looked_wholes h.known_has _ h.reads
    intro k hk
    rcases mem_cons.mp hk with rfl | hk
    · exact h.subject_standing.intact
    · exact (h.standing.child (h.kept.subset hk)).intact
  refine EndsUnless.bind (EndsUnless.edit (fun ids filled hrefill => EndsUnless.say fun _ => ?_)
    fun hnone =>
    by_contra fun hfine => ?_)
  swap
  · obtain ⟨ids, filled, hrefill⟩ := exists_refill
      [.declaration symbol type (some (.kept subject)) position, .block (body.map .kept) none]
        (hmany hfine)
      mem_cons_self
    exact hnone _ hrefill
  obtain ⟨_, hexchanged⟩ := refill_exchanged hrefill
  have hreads := hexchanged.reads h.standing ⟨plain_declaration, ⟨plainAll_map_kept body, trivial⟩,
    trivial⟩ hlaid hsupplied hlooked
  have hlisted := hexchanged.listed_eq h.standing hlaid hsupplied
  cases hreads with
  | @cons _ declaration _ _ hdeclaration hrest =>
    cases hrest with
    | @cons _ inner _ _ hinner hnil =>
      cases hnil
      simp only [Draft.block, Draft.term, Draft.termKids, Draft.termOccupants,
        termAll_map_kept] at hinner
      obtain ⟨_, _, hface, hkids⟩ := reads_node_iff.mp hinner
      have hstatements := (hkids.at_role .statements).toList
      have heq := eq_of_reads_known hstatements horigin
      refine ⟨(hexchanged.edited h.standing hlaid hsupplied).spared,
        ⟨declaration,
          .within hkind (by simpa using hlisted) (congrArg (fun face => face.shape.kind) hface) heq,
        hdeclaration⟩, ?_⟩
      rw [show (kidsAt .statements (filled.node inner).kids).toList = body from heq] at hstatements
      exact forall₂_same.mp (forall₂_map_left_iff.mp hstatements)

theorem reads_both (h : t.Reads t.Has term id) (h' : t'.Reads t.Has term id)
    (hbelow : t'.Beneath id a) :
    t.Beneath id a ∧ t'.shape a = t.shape a := by
  obtain ⟨other, hoccurs, hread'⟩ := h'.occurs_of_beneath hbelow
  obtain ⟨b, hbelow', hread⟩ := h.beneath_of_occurs hoccurs
  have horigin := (hread.originates b).mpr ⟨hread.has, rfl⟩
  have heq : b = a := ((hread'.originates b).mp horigin).2
  subst heq
  refine ⟨hbelow', congrArg Face.shape (hread'.face_eq.trans hread.face_eq.symm)⟩

/-- A switch with only a default, collapsed. -/
structure Collapsed (t t' : Tree) (block first : NodeId) (rest : List NodeId) (temporary : Symbol)
    (subject declaration : NodeId) (body : List NodeId) : Prop where
  assigned : t.assignedSubject? first = some subject
  surfaces : Surfaces t t' temporary subject declaration
  isBody : t.IsDefaultBody rest body
  placed : Placed t t' block declaration body
  same : ∀ statement ∈ body, ∀ term, t.Reads t.Has term statement → t'.Reads t.Has term statement
  unmentioned : ∀ statement ∈ body, ∀ a, t'.Beneath statement a →
    t'.isReferenceTo temporary a = false
  unreached : ∀ last name, rest.getLast? = some last → t.labelName? last = some name →
    ∀ statement ∈ body, ∀ a, t'.Beneath statement a → t'.isGotoTo name a = false

theorem Placed.of_same_nodes {u : Tree} (h : Placed u t' block declaration body)
    (hblock : u.node block = t.node block)
    (hholder : ∀ p, t.parent block = some p → u.node p = t.node p) :
    Placed t t' block declaration body := by
  have hparentEq : u.parent block = t.parent block := by rw [parent, hblock, parent]
  cases h with
  | @before holder earlier later hparent hkind hlisted hplaced hbody =>
    rw [hparentEq] at hparent
    have hnode := hholder holder hparent
    rw [kind, shape, hnode] at hkind
    rw [listed, hnode] at hlisted
    exact .before hparent hkind hlisted hplaced hbody
  | @within inner hkind hplaced hinner hbody =>
    apply Placed.within _ hplaced hinner hbody
    intro holder hparent
    rw [kind, shape, ← hholder holder hparent]
    exact hkind holder (hparentEq.trans hparent)

theorem coin_local {name : Name} {post : Symbol → Session → Prop}
    (h : ∀ symbol after, symbol.kind = .localVariable → symbol.name = name →
      (∀ D, Spared D s.tree after.tree) → (∀ a, after.tree.node a = s.tree.node a) →
      post symbol after) :
    EndsUnless amiss (Pass.coin .localVariable name type) s post :=
  h _ _ rfl rfl (fun _ => Spared.of_same_store rfl rfl rfl) fun _ => rfl

theorem Collapsed.of_reads (honly : t.isOnlyDefault temporary rest = .ok true)
    (hassigned : t.assignedSubject? first = some subject) (hsubject : t.Standing subject)
    (hstanding : ∀ a ∈ rest, t.Standing a) (hlook : ∀ a, t.Standing a → t.Reads t.Has (look a) a)
    (hlocal : symbol.kind = .localVariable)
    (hname : symbol.name = temporary.name.mapText surfacedName)
    (hplaced : Placed t t' block declaration (t.defaultBody rest))
    (hdeclaration :
      t'.Reads t.Has (Draft.term look (.declaration symbol type (some (.kept subject)) position))
      declaration)
    (hbody : ∀ a ∈ t.defaultBody rest, t'.Reads t.Has (look a) a) :
    Collapsed t t' block first rest temporary subject declaration (t.defaultBody rest) := by
  have horigin : (look subject).origin = some subject :=
    ((hlook subject hsubject).originates subject).mpr ⟨hsubject.has, rfl⟩
  obtain ⟨hnew, hshape, hinitializer, hsubjectReads⟩ := reads_declaration horigin hdeclaration
  have hbodyS : ∀ a ∈ t.defaultBody rest, t.Standing a := fun a ha =>
    hstanding a ((defaultBody_sublist t rest).subset ha)
  -- Nothing beneath the body is new, so what the test has found beforehand still holds.
  have hback : ∀ statement ∈ t.defaultBody rest, ∀ a, t'.Beneath statement a →
      a ∈ t.walk statement ∧ t'.shape a = t.shape a := by
    intro statement hstatement a hbelow
    have hstatementS := hbodyS statement hstatement
    obtain ⟨hbefore, hsame⟩ := reads_both (hlook statement hstatementS) (hbody statement hstatement)
      hbelow
    exact ⟨mem_walk_of_beneath hstatementS.intact.shallow hbefore, hsame⟩
  refine ⟨hassigned, ⟨hnew, ⟨symbol, hlocal, hname, hshape⟩, hinitializer, ?_⟩,
    t.isDefaultBody_defaultBody rest, hplaced, ?_, ?_, ?_⟩
  · intro term hterm
    rw [hterm.unique (hlook subject hsubject)]
    exact hsubjectReads
  · intro statement hstatement term hterm
    rw [hterm.unique (hlook statement (hbodyS statement hstatement))]
    exact hbody statement hstatement
  · intro statement hstatement a hbelow
    obtain ⟨hwalk, hsame⟩ := hback statement hstatement a hbelow
    have hmentions :=
      (isOnlyDefault_ok honly).2.1 statement (t.defaultBody_subset rest statement hstatement)
    rw [mentions, any_eq_false] at hmentions
    rw [isReferenceTo, hsame]
    exact Bool.eq_false_iff.mpr (hmentions a hwalk)
  · intro last name hlast hlabel statement hstatement a hbelow
    obtain ⟨hwalk, hsame⟩ := hback statement hstatement a hbelow
    rw [isGotoTo, hsame]
    exact not_isGotoTo_of_onlyDefault honly hlast hlabel hstatement hwalk

theorem SubjectTaken.prepared (h : SubjectTaken t t' block subject rest) (htidy : t.Tidy)
    (hblock : t.Standing block) (hlisted : t.listed block .statements = first :: rest)
    (hsubject : t.Standing subject) (hknown : ∀ a, known a → t.Has a)
    (hlook : ∀ a, t.Standing a → t.Reads known (look a) a) :
    Prepared known look t' block subject (t.defaultBody rest) := by
  have hsub := defaultBody_sublist t rest
  have hstanding : ∀ a ∈ subject :: rest, t.Standing a := by
    rw [forall_mem_cons]
    refine ⟨hsubject, fun a ha => hblock.child ((t.listed_sublist block .statements).subset ?_)⟩
    rw [hlisted]
    exact mem_cons_of_mem _ ha
  refine ⟨(h.undisturbed fun _ => False).tidy htidy, hblock.of_undisturbed h.undisturbed, ?_,
    h.standing, h.parentless, h.off, fun a ha =>
    (h.undisturbed fun _ => False).keeps.has (hknown a ha), fun a ha => ?_⟩
  · rw [listed, h.node_block, ← listed, hlisted]
    exact hsub.trans (sublist_cons_self _ _)
  · have hmem : a ∈ subject :: rest := (hsub.cons_cons subject).subset ha
    exact h.reads known (look a) a hmem (hlook a (hstanding a hmem))

/-- What it takes to collapse a block without a fault: the subject is an expression and statements
are kept in lists. -/
structure Collapsible (t : Tree) (block first : NodeId) (rest : List NodeId) : Prop where
  many : (t.node block).kid .statements = .many (first :: rest)
  subject : ∃ subject type, t.assignedSubject? first = some subject ∧
    (t.node subject).type? = some type
  lists : ∀ p, t.parent block = some p → t.kind p = .block → ∃ list,
    (t.node p).kid .statements = .many list

theorem collapse_endsUnless (htidy : s.tree.Tidy) (hblock : s.tree.Standing block)
    (hlisted : s.tree.listed block .statements = first :: rest)
    (hsets : s.tree.switchTemporary? first = .ok (some temporary))
    (honly : s.tree.isOnlyDefault temporary rest = .ok true) :
    EndsUnless (¬Collapsible s.tree block first rest) (collapse block first rest temporary) s
      fun _ after =>
      Spared (s.tree.Within block) s.tree after.tree ∧ ∃ subject declaration,
        Collapsed s.tree after.tree block first rest temporary subject declaration
    (s.tree.defaultBody rest) := by
  obtain ⟨assignment, hassigns⟩ := switchTemporary?_ok hsets
  obtain ⟨_, hassignment, _⟩ := assignmentOf?_eq_some.mp hassigns
  have hassigned : s.tree.assignedSubject? first = s.tree.only? assignment .right := by
    rw [assignedSubject?, hassigns]
    rfl
  obtain ⟨look, hlook⟩ := s.tree.exists_look s.tree.Has
  have hsub : (first :: rest).Sublist (s.tree.children block) :=
    hlisted ▸ s.tree.listed_sublist block .statements
  have hbodySub := defaultBody_sublist s.tree rest
  have hstanding : ∀ a ∈ first :: rest, s.tree.Standing a :=
    fun a ha => hblock.child (hsub.subset ha)
  have hreads : ∀ a, s.tree.Standing a → s.tree.Reads s.tree.Has (look a) a := fun a ha =>
    hlook a _ (Reads.exists_of_intact s.tree.Has ha.intact).choose_spec
  refine EndsUnless.bind (EndsUnless.tree ?_)
  refine EndsUnless.bind (EndsUnless.child (fun other hother => ?_)
    fun hnone => by simp [hassignment] at hnone)
  rw [hassignment] at hother
  cases hother
  refine EndsUnless.bind (EndsUnless.ofExcept (fun type _ => ?_) fun hnone hfine => ?_)
  swap
  · obtain ⟨subject, type, hsubject, htype⟩ := hfine.subject
    rw [hassigned] at hsubject
    cases hknown : temporary.type <|> s.tree.typeOf assignment with
    | some known => exact hnone _ (by rw [hknown]; rfl)
    | none =>
      refine hnone type ?_
      rw [hknown, Tree.typeOr, Tree.typeIn, Tree.child, hsubject]
      show s.tree.typeAt subject = _
      rw [Tree.typeAt, htype]
  refine EndsUnless.bind (coin_local fun symbol coined hlocal hname hcoined hnode => ?_)
  refine EndsUnless.bind (EndsUnless.child (fun subject hsubject => ?_) fun hnone hfine => ?_)
  swap
  · obtain ⟨subject, _, hsubject, _⟩ := hfine.subject
    rw [only?, hnode, ← only?, ← hassigned, hsubject] at hnone
    cases hnone
  rw [only?, hnode, ← only?] at hsubject
  have hassignmentS := (hstanding first mem_cons_self).child (mem_children_of_only? hassignment)
  have hchild := mem_children_of_only? hsubject
  have hinside : s.tree.Within block subject := by
    refine hblock.intact.within_of_child (hsub.subset mem_cons_self) ?_
    exact (Beneath.of_child hchild).below_child (mem_children_of_only? hassignment)
  have hsubjectS := hblock.beneath hinside.1
  refine EndsUnless.bind (EndsUnless.of_yields
    (remove_subject_yields hcoined hnode htidy hblock hlisted hassignment hsubject fun cut hcut =>
      ?_) ?_)
  swap
  · obtain ⟨removed, hremoved⟩ : ∃ t, coined.tree.remove subject = .ok t :=
      exists_remove (by rw [parent, hnode]; exact hassignmentS.intact.parent_child hchild)
        (by rw [children, hnode]; exact hchild)
    exact (Ends.edit (by rw [hremoved]; rfl) trivial : Ends (Pass.remove subject) coined fun _ _ =>
      True).imp fun _ h => h.imp fun _ h => h.1
  have hprepared := hcut.prepared htidy hblock hlisted hsubjectS (fun _ ha => ha) hreads
  have hparentCut : cut.tree.parent block = s.tree.parent block := by
    rw [parent, hcut.node_block, parent]
  have hmany : ¬¬Collapsible s.tree block first rest →
      (cut.tree.node block).kid .statements = .many (first :: rest) := fun hfine => by
    rw [hcut.node_block, (not_not.mp hfine).many]
  -- Both ways to place the declaration end alike.
  have hfinish : ∀ after : Session, Settled s.tree.Has look cut.tree after.tree block subject
      (s.tree.defaultBody rest)
      (.declaration symbol type (some (.kept subject)) (s.tree.position first)) →
        Spared (s.tree.Within block) s.tree after.tree ∧ ∃ subject declaration,
        Collapsed s.tree after.tree block first rest temporary subject declaration
        (s.tree.defaultBody rest) := by
    rintro after ⟨hspared, ⟨declaration, hplaced, hdeclaration⟩, hbody⟩
    constructor
    · refine (hcut.undisturbed _).trans hspared ?_
      rintro a ha ⟨top, htop, hbelow⟩
      have htopW : s.tree.Within block top := by
        rcases mem_cons.mp htop with rfl | htop
        · exact hinside
        · exact hblock.intact.within_of_child
            (hsub.subset (mem_cons_of_mem _ (hbodySub.subset htop))) Beneath.refl
      exact htopW.trans hblock.intact
        (Spared.beneath_of_undisturbed hcut.undisturbed (hblock.beneath htopW.1) ha hbelow)
    · exact ⟨subject, declaration, .of_reads honly (hassigned.trans hsubject) hsubjectS
        (fun a ha => hstanding a (mem_cons_of_mem _ ha)) hreads hlocal hname
        (hplaced.of_same_nodes hcut.node_block hcut.holder) hdeclaration hbody⟩
  split
  · rename_i hany
    obtain ⟨holder, hholder, hkind⟩ := (Option.any_eq_true _ _).mp hany
    have hkindCut : cut.tree.kind holder = .block := by
      rw [kind, shape, hcut.holder holder hholder]
      exact eq_of_beq hkind
    refine (collapse_before hprepared (hparentCut.trans hholder) hkindCut hmany fun hfine =>
      ?_).mono fun _ after => hfinish after
    rw [hcut.holder holder hholder]
    exact (not_not.mp hfine).lists holder hholder (eq_of_beq hkind)
  · rename_i hany
    refine (collapse_within hprepared ?_ (fun a ha => ?_) hmany).mono fun _ after => hfinish after
    · intro holder hholder hkind
      rw [hparentCut] at hholder
      apply hany
      rw [kind, shape, hcut.holder holder hholder] at hkind
      rw [hholder, Option.any_some]
      exact beq_of_eq hkind
    · have haS := hstanding a (mem_cons_of_mem _ (hbodySub.subset ha))
      exact ((hreads a haS).originates a).mpr ⟨haS.has, rfl⟩

theorem collapseRule_visits {visit : NodeId → Pass Unit} (hvisit : Visits Reach visit) :
    Visits Reach (collapseRule visit) := by
  intro s id htidy hid
  have hunchanged := descend_finish hvisit htidy hid (Spared.refl _ s.tree)
  refine Yields.read ?_
  simp only
  split
  · split
    · exact hunchanged
    · rename_i first rest hlisted
      refine Yields.bind (Yields.ofExcept fun temporary hsets => ?_)
      split
      · refine Yields.bind (Yields.ofExcept fun isDefault honly => ?_)
        split
        · rename_i hdefault
          exact Yields.bind
            ((collapse_endsUnless htidy hid hlisted hsets (hdefault ▸ honly)).yields.mono
              fun _ middle hmiddle =>
            descend_finish hvisit htidy hid hmiddle.1)
        · exact hunchanged
      · exact hunchanged
  · exact hunchanged

/-! ## Blocks that are collapsed, and blocks that are not -/

/-- A block sets a temporary and has nothing but a default after it. -/
structure OnlyDefault (t : Tree) (block first : NodeId) (rest : List NodeId) (temporary : Symbol) :
    Prop where
  listed : t.listed block .statements = first :: rest
  sets : t.switchTemporary? first = .ok (some temporary)
  onlyDefault : t.isOnlyDefault temporary rest = .ok true

theorem OnlyDefault.not_lowered (h : OnlyDefault t block first rest temporary)
    (lowered : LoweredSwitch) :
    t.loweredSwitch? block ≠ .ok (some lowered) := by
  intro hlowered
  obtain ⟨statement, hstatement, read, hread⟩ := exists_case_of_lowered h.listed h.sets hlowered
  rw [(isOnlyDefault_ok h.onlyDefault).1 statement hstatement] at hread
  cases hread

theorem run_ofExcept {β : Type} {answer : Except Fault α} {next : α → Pass β} :
    (Pass.ofExcept answer >>= next) s =
      match answer with
      | .ok result => next result s
      | .error fault => .error fault s := by
  cases answer <;> rfl

theorem collapseRule_collapses (h : OnlyDefault s.tree block first rest temporary)
    (hkind : s.tree.kind block = .block) (visit : NodeId → Pass Unit) :
    collapseRule visit block s = (do collapse block first rest temporary; Pass.descend visit block)
      s := by
  rw [collapseRule, run_tree]
  simp only [hkind, if_true, h.listed]
  rw [run_ofExcept, h.sets]
  dsimp only
  rw [run_ofExcept, h.onlyDefault]
  rfl

theorem collapseRule_spares
    (h : ∀ first rest temporary, ¬OnlyDefault s.tree block first rest temporary)
    (visit : NodeId → Pass Unit) :
    collapseRule visit block s = Pass.descend visit block s ∨
      ∃ fault, collapseRule visit block s = .error fault s := by
  rw [collapseRule, run_tree]
  split
  · cases hlisted : s.tree.listed block .statements with
    | nil =>
      left
      rfl
    | cons first rest =>
      dsimp only
      rw [run_ofExcept]
      cases hsets : s.tree.switchTemporary? first with
      | error fault =>
        right
        exact ⟨fault, rfl⟩
      | ok found =>
        cases found with
        | none =>
          left
          rfl
        | some temporary =>
          dsimp only
          rw [run_ofExcept]
          cases honly : s.tree.isOnlyDefault temporary rest with
          | error fault =>
            right
            exact ⟨fault, rfl⟩
          | ok isDefault =>
            cases isDefault with
            | true => exact absurd ⟨hlisted, hsets, honly⟩ (h first rest temporary)
            | false =>
              left
              rfl
  · left
    rfl

/-- A block with only a default is collapsed before its statements are visited: its subject goes
into the declaration of a variable directly before the statements of the default, which are as
before and have neither a jump to the label that is gone nor a mention of the temporary.  Any other
block is left to the visits of its statements.  No block has only a default and is a lowered switch
as well. -/
theorem collapseRule_onlyDefault (hsound : s.tree.Sound) (hreachable : s.tree.Reachable block)
    (hkind : s.tree.kind block = .block) (visit : NodeId → Pass Unit) :
    (∀ first rest temporary, OnlyDefault s.tree block first rest temporary →
      collapseRule visit block s =
        (do collapse block first rest temporary; Pass.descend visit block) s ∧
      (∀ after, collapse block first rest temporary s = .ok () after → ∃ subject declaration body,
        Collapsed s.tree after.tree block first rest temporary subject declaration body) ∧
      (∀ subject type, (s.tree.node block).kid .statements = .many (first :: rest) →
        s.tree.assignedSubject? first = some subject → (s.tree.node subject).type? = some type →
        (∀ p, s.tree.parent block = some p → s.tree.kind p = .block →
          ∃ list, (s.tree.node p).kid .statements = .many list) →
        ∃ after, collapse block first rest temporary s = .ok () after) ∧
      ∀ lowered, s.tree.loweredSwitch? block ≠ .ok (some lowered)) ∧
    ((∀ first rest temporary, ¬OnlyDefault s.tree block first rest temporary) →
      collapseRule visit block s = Pass.descend visit block s ∨
        ∃ fault, collapseRule visit block s = .error fault s) := by
  have hblock : s.tree.Standing block := hsound.standing.beneath hreachable
  constructor
  · intro first rest temporary h
    refine ⟨collapseRule_collapses h hkind visit, ?_, ?_, h.not_lowered⟩
    · intro after hrun
      obtain ⟨_, subject, declaration, hcollapsed⟩ :=
        (collapse_endsUnless hsound.tidy hblock h.listed h.sets h.onlyDefault).yields () after hrun
      exact ⟨subject, declaration, _, hcollapsed⟩
    · intro subject type hkid hassigned htype hlists
      obtain ⟨_, after, hrun, _⟩ :=
        (collapse_endsUnless hsound.tidy hblock h.listed h.sets h.onlyDefault).ends
        (not_not.mpr ⟨hkid, ⟨subject, type, hassigned, htype⟩, hlists⟩)
      exact ⟨after, hrun⟩
  · intro h
    exact collapseRule_spares h visit

end Switch

/-! ## A sample -/

/-- `{ $switch$1 = F(); A(); goto end; end: }` in the body of a method. -/
def Json.defaultSample : Json :=
  let call (name : String) :=
    nodeOf "Invocation" [("target", nodeOf "Reference" [("name", .text name)])]
  let statement (expression : Json) := nodeOf "ExpressionStatement" [("expr", expression)]
  let temporary := nodeOf "Reference" [("name", .text "$switch$1"), ("symbol", .int 1)]
  methodDocument
    [("1", .record [("kind", .text "Local"), ("name", .text "$switch$1"),
      ("synthetic", .bool true)])]
    [nodeOf "Block" [("statements", .list [
      statement (nodeOf "BinaryOp" [("op", .text "="), ("left", temporary), ("right", call "F")]),
      statement (call "A"), nodeOf "Goto" [("label", .text "end")],
        nodeOf "Label" [("name", .text "end")]])]]

namespace Switch

open List

def isCollapsible (t : Tree) (block first : NodeId) : Bool :=
  match t.switchTemporary? first with
  | .ok (some temporary) =>
    decide (t.isOnlyDefault temporary (t.listed block .statements).tail = .ok true) &&
      (Session.mk t (.ofVerbosity 0 none)).runsTo
        (collapse block first (t.listed block .statements).tail temporary) fun _ after =>
          (after.tree.listed block .statements).length == 1
  | _ => false

theorem collapseRule_defaultSample :
    ∃ document block first rest temporary after subject declaration body,
      readDocument Json.defaultSample .null = .ok document ∧
      collapse block first rest temporary ⟨document.tree, .ofVerbosity 0 none⟩ = .ok () after ∧
      Collapsed document.tree after.tree block first rest temporary subject declaration body ∧
      (after.tree.listed block .statements).length = 1 := by
  obtain ⟨document, hread, h⟩ := Json.exists_of_holds (show Json.defaultSample.holds (fun t =>
    (t.walk t.root).any fun block =>
      t.kind block == .block && (t.listed block .statements).head?.any fun first =>
      isCollapsible t block first) = true by decide +kernel)
  simp only [any_eq_true, Option.any_eq_true, Bool.and_eq_true, beq_iff_eq] at h
  obtain ⟨block, hmem, hkind, first, hfirst, h⟩ := h
  obtain ⟨rest, hlisted⟩ := head?_eq_some_iff.mp hfirst
  unfold isCollapsible at h
  split at h
  · rename_i temporary hsets
    rw [Bool.and_eq_true, decide_eq_true_eq, hlisted] at h
    obtain ⟨_, after, hrun, hleft⟩ := Session.exists_of_runsTo h.2
    have hsound : (Session.mk document.tree (.ofVerbosity 0 none)).tree.Sound :=
      readDocument_sound hread
    obtain ⟨_, hcollapsed, _, _⟩ :=
      (collapseRule_onlyDefault hsound (beneath_of_mem_walk hmem) hkind fun _ => pure ()).1
      first rest temporary ⟨hlisted, hsets, h.1⟩
    obtain ⟨subject, declaration, body, hcollapsed⟩ := hcollapsed after hrun
    exact ⟨document, block, first, rest, temporary, after, subject, declaration, body, hread, hrun,
      hcollapsed, eq_of_beq hleft⟩
  · cases h

end Switch

end UnitySharp
