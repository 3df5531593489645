import UnitySharp.Proofs.Switch.Rebuilding
import UnitySharp.Proofs.Tree.LooseEnd

/-!
# The parts of a rebuilt switch

Everything that a rebuilt switch keeps comes from one of the statements of the lowered
one.  Different statements have nothing in common, so these parts do not overlap; and what has been
cut on the way spares each of them.
-/

namespace UnitySharp

open UnitySharp.Tree Pass List

variable {s t : Tree} {f : NodeId → NodeId} {a c k branch : NodeId}

namespace Tree

variable {u : Tree} {b d l id : NodeId}

theorem Intact.of_sublist (h : s.Intact id) (hslots : ∀ a, s.HasSlot a → t.HasSlot a)
    (hsub : ∀ a, s.Beneath id a → (t.children a).Sublist (s.children a))
    (hparent : ∀ a c, s.Beneath id a → c ∈ t.children a → t.parent c = s.parent c) :
      t.Intact id := by
  induction h with
  | @intro id hslot hnodup hheld hbelow ih =>
    have hself := hsub id Beneath.refl
    refine .intro (hslots id hslot) (hnodup.sublist hself) ?_ ?_
    · intro c hc
      rw [hparent id c Beneath.refl hc]
      exact hheld c (hself.subset hc)
    · intro c hc
      have hchild := hself.subset hc
      exact ih c hchild (fun a ha => hsub a (ha.below_child hchild))
        fun a c ha => hparent a c (ha.below_child hchild)

theorem Intact.ready_of_same (h : t.Intact k) (hkeeps : t.Keeps u) (hsame : t.SameBeneath u k) :
    (Part.whole k).Ready u :=
  (h.ready.transfer hkeeps fun top heq a ha => by
    cases heq
    exact (hsame a ha).1).1

/-! ## Origins -/

/-- A node comes from beneath another one: it was beneath it before the renewals or is so after
them. -/
def Held (s t : Tree) (top a : NodeId) : Prop :=
  (s.Has a ∧ s.Beneath top a) ∨ t.Beneath top a

theorem Held.self (h : s.Has a) : Held s t a a :=
  Or.inl ⟨h, Beneath.refl⟩

namespace Renewed

section

variable (h : Renewed f s t) (hc : s.Standing c) (hd : s.Standing d) (hcd : s.Apart c d)
  (hk : t.Intact k)

include h hc hd hcd hk

theorem held_not_beneath (hck : Held s t c k) (hdl : Held s t d l) : ¬t.Beneath k l := by
  intro hkl
  have hdirect : ¬s.Beneath c d := fun hbad => hcd d hbad Beneath.refl
  have hreverse : ¬s.Beneath d c := fun hbad => hcd c Beneath.refl hbad
  rcases hck with ⟨hkHas, hck⟩ | hck
  · have hkS := hc.beneath hck
    rcases hdl with ⟨hlHas, hdl⟩ | hdl
    · exact hcd l (hck.trans (h.beneath_back hkS hlHas hkl)) hdl
    · rcases hk.comparable (h.standing hd).intact hkl hdl with hkd | hdk
      · exact hdirect (hck.trans (h.beneath_back hkS hd.has hkd))
      · exact hcd k hck (h.beneath_back hd hkHas hdk)
  · rcases hdl with ⟨hlHas, hdl⟩ | hdl
    · exact hcd l (h.beneath_back hc hlHas (hck.trans hkl)) hdl
    · rcases (h.standing hc).intact.comparable (h.standing hd).intact (hck.trans hkl)
        hdl with hbad | hbad
      · exact hdirect (h.beneath_back hc hd.has hbad)
      · exact hreverse (h.beneath_back hd hc.has hbad)

theorem held_apart (hl : t.Intact l) (hck : Held s t c k) (hdl : Held s t d l) : t.Apart k l := by
  have hdc : s.Apart d c := fun a hda hca => hcd a hca hda
  refine Aside.apart ⟨?_, ?_⟩ hk hl
  · exact h.held_not_beneath hc hd hcd hk hck hdl
  · exact h.held_not_beneath hd hc hdc hl hdl hck

end

theorem held_off (h : Renewed f s t) (hid : s.Standing id) (hc : s.Within id c)
    (hck : Held s t c k) :
    ¬t.Beneath k id := by
  intro hbad
  have hcS := hid.beneath hc.1
  rcases hck with ⟨hkHas, hck⟩ | hck
  · exact Within.not_above hcS.intact (hck.trans (h.beneath_back (hcS.beneath hck) hid.has hbad)) hc
  · exact Within.not_above hcS.intact (h.beneath_back hcS hid.has (hck.trans hbad)) hc

theorem label_branch_apart {condition label : NodeId} (h : Renewed f s t) (hc : s.Standing c)
    (hcondition : s.only? c .condition = some condition) (hlabel : s.Beneath condition label)
    (hbranch : t.only? c .thenBranch = some branch) : t.Apart label branch := by
  rw [h.only?_eq hc] at hbranch
  obtain ⟨before, hbefore, himage⟩ := Option.map_eq_some_iff.mp hbranch
  have hconditionS := hc.child (mem_children_of_only? hcondition)
  have hlabelS := hconditionS.beneath hlabel
  have hbeforeS := hc.child (mem_children_of_only? hbefore)
  by_cases hfix : f before = before
  · have heq : branch = before := himage.symm.trans hfix
    subst heq
    refine h.held_apart hconditionS hbeforeS ?_ (h.standing hlabelS).intact
      (h.standing hbeforeS).intact (Or.inl ⟨hlabelS.has, hlabel⟩) (Held.self hbeforeS.has)
    exact fun a => hc.intact.siblings_apart (mem_children_of_only? hcondition)
      (mem_children_of_only? hbefore) (only?_ne hc.intact (by decide) hcondition hbefore)
  · obtain ⟨hbranchS, hnew⟩ := h.new before hbeforeS.has hfix
    rw [himage] at hbranchS hnew
    have hchild : branch ∈ t.children c := by
      rw [h.children_eq hc]
      exact mem_map.mpr ⟨before, mem_children_of_only? hbefore, himage⟩
    have hlabelI := (h.standing hlabelS).intact
    refine Aside.apart ⟨fun hbad => ?_, fun hbad => hnew label hbad hlabelS.has⟩ hlabelI
      hbranchS.intact
    have hne : branch ≠ label := by
      rintro rfl
      exact hnew branch Beneath.refl hlabelS.has
    have habove := hlabelI.beneath_holder_of_child (h.standing hc).intact hchild hbad hne
    have hwithin := hc.intact.within_of_child (mem_children_of_only? hcondition) hlabel
    exact Within.not_above hlabelS.intact (h.beneath_back hlabelS hc.has habove) hwithin

end Renewed

theorem children_of_block (hlaid : t.Laid id) (hkind : t.kind id = .block) :
    t.children id = t.listed id .statements :=
  children_of_sole_role hlaid (by rw [hkind]; rfl)

end Tree

/-! ## A lowered switch on the way -/

namespace Switch

variable {lowered : LoweredSwitch} {first last assignment assigned subject : NodeId}
  {read : SwitchCase} {w : Tree} {waiting : List NodeId} {kss : List (List NodeId)}

def between (lowered : LoweredSwitch) : List NodeId :=
  lowered.cases.map (·.statement) ++ lowered.defaults

def defaultStatements (lowered : LoweredSwitch) : List NodeId :=
  lowered.movingCases.map (·.statement) ++ lowered.defaults

/-- A lowered switch of a tree `s`, after the renewals in it have led to a tree `t`. -/
structure Refreshed (s t : Tree) (f : NodeId → NodeId) (lowered : LoweredSwitch)
    (first last : NodeId) :
    Prop where
  tidy : s.Tidy
  block : s.Standing lowered.block
  kind_block : s.kind lowered.block = .block
  lowers : s.Lowers lowered first last
  renewed : Renewed f s t

/-- The subject has been chosen as well: the value assigned to the temporary, or a variable that has
taken its place while it waits for its declaration. -/
structure Stage (s t : Tree) (f : NodeId → NodeId) (lowered : LoweredSwitch)
    (first last assignment assigned subject : NodeId) (waiting : List NodeId) : Prop
    extends Refreshed s t f lowered first last where
  sets : s.only? first .expression = some assignment
  value : s.only? assignment .right = some assigned
  held : t.parent subject = some assignment
  stands : t.Standing subject
  waits : (waiting = [] ∧ subject = assigned) ∨
    (waiting = [assigned] ∧ t.parent assigned = none ∧ ¬s.Has subject)

def Parted (t : Tree) (lowered : LoweredSwitch) (assignment a : NodeId) : Prop :=
  IsBranch t lowered.movingCases a ∨ a = assignment

/-- The nodes that lose their parent before a switch is put together. -/
def Dropped (t : Tree) (lowered : LoweredSwitch) (subject a : NodeId) : Prop :=
  Spare t lowered.cases a ∨ a ∈ bodyDropped t (defaultStatements lowered) ∨ a = subject

/-- The nodes that lose their parent while a switch is rebuilt, the statements of the block among
them. -/
def Cut (t : Tree) (lowered : LoweredSwitch) (subject a : NodeId) : Prop :=
  Dropped t lowered subject a ∨ a ∈ t.listed lowered.block .statements

namespace Refreshed

theorem defaultStatements_sublist (lowered : LoweredSwitch) :
    (defaultStatements lowered).Sublist (between lowered) :=
  (filter_sublist.map _).append (List.Sublist.refl _)

theorem statement_of_case (hread : read ∈ lowered.cases) : read.statement ∈ between lowered :=
  mem_append_left _ (mem_map_of_mem hread)

theorem held_branch (hbranch : t.only? read.statement .thenBranch = some branch) :
    Held s t read.statement branch :=
  Or.inr (Beneath.of_child (mem_children_of_only? hbranch))

theorem child_of_dropped (ha : a ∈ bodyDropped t (t.listed branch .statements)) :
    a ∈ t.children branch :=
  (t.listed_sublist branch .statements).subset (mem_of_mem_bodyDropped ha)

theorem held_spare (hbranch : t.only? read.statement .thenBranch = some branch)
    (ha : a ∈ bodyDropped t (t.listed branch .statements)) : Held s t read.statement a :=
  Or.inr ((Beneath.of_child (child_of_dropped ha)).below_child (mem_children_of_only? hbranch))

section

variable (h : Refreshed s t f lowered first last)

include h

theorem tidy_after : t.Tidy :=
  (h.renewed.undisturbed fun _ => False).tidy h.tidy

theorem statements_sublist : (first :: between lowered).Sublist (s.children lowered.block) := by
  have hall := s.listed_sublist lowered.block .statements
  rw [h.lowers.listed] at hall
  exact ((sublist_append_left _ [last]).cons_cons first).trans hall

theorem child_of_statement (hc : c ∈ between lowered) : c ∈ s.children lowered.block :=
  h.statements_sublist.subset (mem_cons_of_mem first hc)

theorem within_of_statement (hc : c ∈ between lowered) : s.Within lowered.block c :=
  h.block.intact.within_of_child (h.child_of_statement hc) Beneath.refl

theorem standing_of_statement (hc : c ∈ between lowered) : s.Standing c :=
  h.block.child (h.child_of_statement hc)

theorem statements_apart : (between lowered).Pairwise s.Apart :=
  (pairwise_cons.mp (h.block.intact.children_apart h.statements_sublist)).2

theorem apart_of_ne (ha : a ∈ between lowered) (hc : c ∈ between lowered) (hne : a ≠ c) :
    s.Apart a c := fun _ =>
  h.block.intact.siblings_apart (h.child_of_statement ha) (h.child_of_statement hc) hne

theorem nodup_statements : (between lowered).Nodup :=
  (nodup_cons.mp (h.block.intact.nodup.sublist h.statements_sublist)).2

theorem case_eq_of_statement {x y : SwitchCase} (hx : x ∈ lowered.cases) (hy : y ∈ lowered.cases)
    (heq : x.statement = y.statement) : x = y :=
  inj_on_of_nodup_map (nodup_append.mp h.nodup_statements).1 hx hy heq

theorem constant_not_default (hread : read ∈ lowered.constantCases)
    (hc : c ∈ defaultStatements lowered) :
    read.statement ≠ c := by
  obtain ⟨hmem, hconstant⟩ := mem_filter.mp hread
  rintro rfl
  rcases mem_append.mp hc with hc | hc
  · obtain ⟨other, hother, heq⟩ := mem_map.mp hc
    obtain ⟨hother, hmoves⟩ := mem_filter.mp hother
    rw [h.case_eq_of_statement hother hmem heq, hconstant] at hmoves
    exact absurd hmoves (by simp)
  · exact (nodup_append.mp h.nodup_statements).2.2 _ (mem_map_of_mem hmem) _ hc rfl

end

end Refreshed

namespace Stage

open Refreshed

section

variable (h : Stage s t f lowered first last assignment assigned subject waiting)

include h

theorem within_assignment : s.Within lowered.block assignment :=
  h.block.intact.within_of_child (h.statements_sublist.subset mem_cons_self)
    (Beneath.of_child (mem_children_of_only? h.sets))

theorem standing_assignment : s.Standing assignment :=
  h.block.beneath h.within_assignment.1

theorem assignment_apart (hc : c ∈ between lowered) : s.Apart assignment c := by
  intro a hassignment hca
  have hapart := pairwise_cons.mp (h.block.intact.children_apart h.statements_sublist)
  exact hapart.1 c hc a (hassignment.below_child (mem_children_of_only? h.sets)) hca

theorem within_of_origin (hc : c ∈ assignment :: between lowered) : s.Within lowered.block c := by
  rcases mem_cons.mp hc with rfl | hc
  · exact h.within_assignment
  · exact h.within_of_statement hc

theorem origins_apart (ha : a ∈ assignment :: between lowered)
    (hc : c ∈ assignment :: between lowered) (hne : a ≠ c) :
    s.Apart a c := by
  rcases mem_cons.mp ha with rfl | ha' <;> rcases mem_cons.mp hc with rfl | hc'
  · exact absurd rfl hne
  · exact h.assignment_apart hc'
  · exact fun x hax hcx => h.assignment_apart ha' x hcx hax
  · exact h.apart_of_ne ha' hc' hne

theorem assignment_ne (hc : c ∈ between lowered) : c ≠ assignment := by
  rintro rfl
  exact h.assignment_apart hc _ Beneath.refl Beneath.refl

theorem not_beneath_other {x y : NodeId} (hk : t.Intact k) (hc : c ∈ assignment :: between lowered)
    (hheld : Held s t c k) (hx : x ∈ assignment :: between lowered) (hne : x ≠ c)
    (hxy : Held s t x y) :
    ¬t.Beneath k y :=
  h.renewed.held_not_beneath (h.block.beneath (h.within_of_origin hc).1)
    (h.block.beneath (h.within_of_origin hx).1) (h.origins_apart hc hx hne.symm) hk hheld hxy

/-! ## What is cut elsewhere -/

section

variable (hloose : Loosened (Parted t lowered assignment) (Cut t lowered subject) t w)
  (hk : t.Intact k)

include hloose hk

/-- What comes from a statement is not touched by what is done to the others: the links within it
are all there if nothing in it has lost a child or a parent. -/
theorem ready_of_held (hc : c ∈ assignment :: between lowered) (hheld : Held s t c k)
    (hassignment : ¬t.Beneath k assignment)
    (hmoving : ∀ read ∈ lowered.movingCases, read.statement ≠ c)
    (hspare : ∀ read ∈ lowered.cases, read.statement = c → ∀ a, Spare t [read] a → ¬t.Within k a)
    (hdropped : ∀ a ∈ bodyDropped t (defaultStatements lowered), a = c → ¬t.Within k a) :
      (Part.whole k).Ready w := by
  have hoff : ∀ {x y}, x ∈ between lowered → x ≠ c → Held s t x y → ¬t.Beneath k y :=
    fun {x y} hx =>
    h.not_beneath_other hk hc hheld (mem_cons_of_mem _ hx)
  refine hk.ready_of_same hloose.keeps (hloose.sameBeneath hk ?_ ?_)
  · rintro a ha (⟨read, hread, hbranch⟩ | rfl)
    · exact hoff (statement_of_case (filter_sublist.subset hread)) (hmoving read hread)
        (held_branch hbranch) ha
    · exact hassignment ha
  · rintro a ha ((⟨read, hread, branch, hbranch, hbad⟩ | hbad | rfl) | hbad)
    · by_cases heq : read.statement = c
      · exact hspare read hread heq a ⟨read, mem_cons_self, branch, hbranch, hbad⟩ ha
      · exact hoff (statement_of_case hread) heq (held_spare hbranch hbad) ha.1
    · by_cases heq : a = c
      · exact hdropped a hbad heq ha
      · have hmem := (defaultStatements_sublist lowered).subset (mem_of_mem_bodyDropped hbad)
        exact hoff hmem heq (Held.self (h.standing_of_statement hmem).has) ha.1
    · obtain ⟨up, hup, habove, _⟩ := hk.holder ha
      rw [h.held] at hup
      exact hassignment (Option.some.inj hup ▸ habove)
    · have hchild := (t.listed_sublist lowered.block .statements).subset hbad
      exact h.renewed.held_off h.block (h.within_of_origin hc) hheld
        (hk.beneath_holder_of_child (h.renewed.standing h.block).intact hchild ha.1 ha.2)

/-! ## Parts that are ready -/

theorem subject_ready (hheld : Held s t assignment k) (hassignment : ¬t.Beneath k assignment) :
    (Part.whole k).Ready w := by
  refine h.ready_of_held hloose hk mem_cons_self hheld hassignment ?_ ?_ ?_
  · exact fun read hread => h.assignment_ne (statement_of_case (filter_sublist.subset hread))
  · exact fun read hread heq => absurd heq (h.assignment_ne (statement_of_case hread))
  · exact fun a ha heq => absurd heq
      (h.assignment_ne ((defaultStatements_sublist lowered).subset (mem_of_mem_bodyDropped ha)))

end

theorem not_above_assignment (hk : t.Intact k) (hc : c ∈ between lowered) (hheld : Held s t c k) :
    ¬t.Beneath k assignment :=
  h.not_beneath_other hk (mem_cons_of_mem _ hc) hheld mem_cons_self (h.assignment_ne hc).symm
    (Held.self h.standing_assignment.has)

theorem held_subject : Held s t assignment subject := by
  have hstands := h.stands.of_parent h.held
  exact Or.inr (Beneath.of_child hstands.2)

theorem not_beneath_subject : ¬t.Beneath subject assignment := by
  have hassignment := h.renewed.standing h.standing_assignment
  exact hassignment.intact.not_beneath_of_child (h.stands.of_parent h.held).2

theorem standing_assigned : s.Standing assigned :=
  h.standing_assignment.child (mem_children_of_only? h.value)

theorem held_assigned : Held s t assignment assigned :=
  Or.inl ⟨h.standing_assigned.has, Beneath.of_child (mem_children_of_only? h.value)⟩

theorem not_beneath_assigned : ¬t.Beneath assigned assignment := fun hbad =>
  h.standing_assignment.intact.not_beneath_of_child (mem_children_of_only? h.value)
    (h.renewed.beneath_back h.standing_assigned h.standing_assignment.has hbad)

variable (hloose : Loosened (Parted t lowered assignment) (Cut t lowered subject) t w)

include hloose

theorem default_ready (hc : c ∈ lowered.defaults) : (Part.whole c).Ready w := by
  have hmem : c ∈ between lowered := mem_append_right _ hc
  have hcS := h.standing_of_statement hmem
  have hne : ∀ read ∈ lowered.cases, read.statement ≠ c := fun read hread =>
    (nodup_append.mp h.nodup_statements).2.2 _ (mem_map_of_mem hread) c hc
  have hintact := (h.renewed.standing hcS).intact
  refine h.ready_of_held hloose hintact (mem_cons_of_mem _ hmem) (Held.self hcS.has)
    (h.not_above_assignment hintact hmem (Held.self hcS.has)) ?_ ?_ ?_
  · exact fun read hread => hne read (filter_sublist.subset hread)
  · exact fun read hread heq => absurd heq (hne read hread)
  · rintro a _ rfl hbad
    exact hbad.2 rfl

theorem constant_ready (hread : read ∈ lowered.constantCases) (hk : t.Intact k)
    (hheld : Held s t read.statement k) (hspare : ∀ a, Spare t [read] a → ¬t.Within k a) :
    (Part.whole k).Ready w := by
  have hmem : read ∈ lowered.cases := filter_sublist.subset hread
  have hstatement := statement_of_case hmem
  refine h.ready_of_held hloose hk (mem_cons_of_mem _ hstatement) hheld
    (h.not_above_assignment hk hstatement hheld) ?_ ?_ ?_
  · intro other hother heq
    exact h.constant_not_default hread (mem_append_left _ (mem_map_of_mem hother)) heq.symm
  · intro other hother heq
    rw [h.case_eq_of_statement hother hmem heq]
    exact hspare
  · intro a ha heq
    exact absurd heq.symm (h.constant_not_default hread (mem_of_mem_bodyDropped ha))

theorem moving_intact {v : Tree} (hread : read ∈ lowered.movingCases)
    (hbranch : t.only? read.statement .thenBranch = some branch) (hkind : t.kind branch = .block)
    (hslots : ∀ a, w.HasSlot a → v.HasSlot a)
    (hself : v.children branch = bodyKept t (t.listed branch .statements))
    (hothers : ∀ a, a ≠ branch → v.children a = w.children a)
    (hparents : ∀ a, v.parent a = w.parent a) :
    v.Intact read.statement := by
  have hmem : read ∈ lowered.cases := filter_sublist.subset hread
  have hstatement := statement_of_case hmem
  have hreadS := h.standing_of_statement hstatement
  have hreadT := h.renewed.standing hreadS
  have hbranchT := hreadT.child (mem_children_of_only? hbranch)
  have hchildren : t.children branch = t.listed branch .statements :=
    children_of_block (h.tidy_after branch hbranchT.has) hkind
  have hoff : ∀ {x y}, x ∈ between lowered → x ≠ read.statement → Held s t x y →
      ¬t.Beneath read.statement y := fun {x y} hx =>
    h.not_beneath_other hreadT.intact (mem_cons_of_mem _ hstatement) (Held.self hreadS.has)
      (mem_cons_of_mem _ hx)
  have hassignment := h.not_above_assignment hreadT.intact hstatement (Held.self hreadS.has)
  have hbranchOf : ∀ other ∈ lowered.cases, ∀ a, t.only? other.statement .thenBranch = some a →
      t.Beneath read.statement a → a = branch := by
    intro other hother a ha hbelow
    by_cases heq : other.statement = read.statement
    · rw [heq, hbranch] at ha
      exact (Option.some.inj ha).symm
    · exact absurd hbelow (hoff (statement_of_case hother) heq (held_branch ha))
  have hsub : ∀ a, t.Beneath read.statement a → (v.children a).Sublist (t.children a) := by
    intro a ha
    by_cases heq : a = branch
    · rw [heq, hself, hchildren]
      exact bodyKept_sublist _ _
    · rw [hothers a heq, hloose.children_eq (hreadT.beneath ha).has]
      rintro (⟨other, hother, hbad⟩ | rfl)
      · exact heq (hbranchOf other (filter_sublist.subset hother) a hbad ha)
      · exact hassignment ha
  refine hreadT.intact.of_sublist (fun a ha => hslots a (hloose.keeps.hasSlot ha)) hsub ?_
  intro a c ha hc
  have hchild : c ∈ t.children a := (hsub a ha).subset hc
  have haT := hreadT.beneath ha
  have hbelow : t.Within read.statement c := by
    refine ⟨ha.tail hchild, ?_⟩
    rintro rfl
    exact haT.intact.not_beneath_of_child hchild ha
  have hholder : ∀ up, t.parent c = some up → up = a := fun up hup =>
    Option.some.inj (hup.symm.trans (haT.intact.parent_child hchild))
  rw [hparents, hloose.parent_eq (haT.child hchild).has]
  rintro ((⟨other, hother, inner, hinner, hdropped⟩ | hdropped | rfl) | hlisted)
  · have hinnerS := (h.renewed.standing (h.standing_of_statement (statement_of_case hother))).child
      (mem_children_of_only? hinner)
    have heq := hholder inner (hinnerS.intact.parent_child (child_of_dropped hdropped))
    subst heq
    have heq := hbranchOf other hother inner hinner ha
    subst heq
    rw [hself] at hc
    have hnodup : (t.listed inner .statements).Nodup := hchildren ▸ hinnerS.intact.nodup
    exact not_mem_bodyKept hnodup hdropped hc
  · have hx := (defaultStatements_sublist lowered).subset (mem_of_mem_bodyDropped hdropped)
    exact hoff hx hbelow.2 (Held.self (h.standing_of_statement hx).has) hbelow.1
  · rw [← hholder assignment h.held] at ha
    exact hassignment ha
  · have hblockT := h.renewed.standing h.block
    have hup :=
      hblockT.intact.parent_child ((t.listed_sublist lowered.block .statements).subset hlisted)
    rw [← hholder lowered.block hup] at ha
    exact h.renewed.held_off h.block (h.within_of_statement hstatement) (Held.self hreadS.has) ha

theorem moving_ready {tail : List NodeId} (hread : read ∈ lowered.movingCases)
    (hbranch : t.only? read.statement .thenBranch = some branch)
    (htrimmed : Trimmed t w branch tail) :
    (Part.whole read.statement).Ready w := by
  have hmem : read ∈ lowered.cases := filter_sublist.subset hread
  have hstatement := statement_of_case hmem
  have hreadS := h.standing_of_statement hstatement
  have hreadT := h.renewed.standing hreadS
  have hbranchT := hreadT.child (mem_children_of_only? hbranch)
  have hkind : w.kind branch = .block :=
    (hloose.keeps.kind_eq branch hbranchT.has).trans htrimmed.kind
  have hlaid : w.Laid branch := hloose.keeps.laid hbranchT.has (h.tidy_after branch hbranchT.has)
  rcases htrimmed.loose with rfl | ⟨n, rfl, _, hn, hkids, hleaf⟩
  · refine (h.moving_intact hloose hread hbranch htrimmed.kind (fun _ ha => ha) ?_ (fun _ _ => rfl)
      fun _ => rfl).ready
    rw [children_of_block hlaid hkind, listed, Node.kidList, htrimmed.statements, append_nil]
    rfl
  · have hfringed : w.Fringed read.statement branch (bodyKept t (t.listed branch .statements))
      n := by
      refine ⟨?_, htrimmed.statements, hn, hkids, hleaf⟩
      refine h.moving_intact hloose hread hbranch htrimmed.kind (fun a ha => by simpa using ha) ?_
        (fun a hne => children_setRole_ne w hne _ _) fun a => parent_setRole w branch a _ _
      have hbranchW := hloose.keeps.has hbranchT.has
      have hkeeps :=
        Keeps.setRole w branch .statements (.many (bodyKept t (t.listed branch .statements)))
      rw [children_of_block (hkeeps.laid hbranchW hlaid)
        ((hkeeps.kind_eq branch hbranchW).trans hkind), listed, Node.kidList,
        kid_setRole_self hbranchW]
      · rfl
      · exact any_statements hlaid hkind
    exact hfringed.ready

end

end Stage

/-! ## What sections take over -/

namespace Refreshed

variable {ks : List NodeId}

section

variable (h : Refreshed s t f lowered first last)

include h

theorem labels_spec (hread : read ∈ lowered.cases) :
    ∃ condition, s.only? read.statement .condition = some condition ∧
      (∀ label ∈ read.labels, s.Beneath condition label) ∧ read.labels.Pairwise s.Apart := by
  obtain ⟨condition, compared, htests, hcompares, hlabels⟩ := h.lowers.cases read hread
  have hcondition :=
    (h.standing_of_statement (statement_of_case hread)).child (mem_children_of_only? htests)
  rw [hlabels]
  refine ⟨condition, htests, ?_, hcompares.labels_apart hcondition.intact⟩
  intro label hlabel
  obtain ⟨_, hmem, rfl⟩ := mem_filterMap.mp hlabel
  exact (hcompares.label_within hcondition.intact hmem).1

theorem taken_held (hread : read ∈ lowered.constantCases) (htaken : Taken t read ks) (hk : k ∈ ks) :
    t.Intact k ∧ Held s t read.statement k ∧ ∀ a, Spare t [read] a → ¬t.Within k a := by
  have hmem : read ∈ lowered.cases := filter_sublist.subset hread
  have hreadS := h.standing_of_statement (statement_of_case hmem)
  obtain ⟨branch, labels, hbranch, hlabels, rfl⟩ := htaken
  obtain ⟨condition, hcondition, hbelow, _⟩ := h.labels_spec hmem
  have hbranchT := (h.renewed.standing hreadS).child (mem_children_of_only? hbranch)
  have hspare : ∀ a, Spare t [read] a → a ∈ bodyDropped t (t.listed branch .statements) := by
    rintro a ⟨other, hother, inner, hinner, ha⟩
    rw [mem_singleton.mp hother, hbranch] at hinner
    cases hinner
    exact ha
  rcases mem_append.mp hk with hk | hk
  · have hlabel := hbelow k (hlabels.subset hk)
    have hkS := (hreadS.child (mem_children_of_only? hcondition)).beneath hlabel
    refine ⟨(h.renewed.standing hkS).intact,
      Or.inl ⟨hkS.has, hlabel.below_child (mem_children_of_only? hcondition)⟩, fun a ha hbad => ?_⟩
    exact h.renewed.label_branch_apart hreadS hcondition hlabel hbranch a hbad.1
      (Beneath.of_child (child_of_dropped (hspare a ha)))
  · have hchild := (t.listed_sublist branch .statements).subset ((bodyKept_sublist _ _).subset hk)
    refine ⟨(hbranchT.child hchild).intact,
      Or.inr ((Beneath.of_child hchild).below_child (mem_children_of_only? hbranch)),
        fun a ha hbad => ?_⟩
    exact hbranchT.intact.siblings_apart hchild (child_of_dropped (hspare a ha)) hbad.2.symm hbad.1
      Beneath.refl

theorem taken_apart (hread : read ∈ lowered.constantCases) (htaken : Taken t read ks) :
    ks.Pairwise t.Apart := by
  have hmem : read ∈ lowered.cases := filter_sublist.subset hread
  have hreadS := h.standing_of_statement (statement_of_case hmem)
  obtain ⟨branch, labels, hbranch, hlabels, rfl⟩ := htaken
  obtain ⟨condition, hcondition, hbelow, hapart⟩ := h.labels_spec hmem
  have hlabelS : ∀ label ∈ labels, s.Standing label := fun label hlabel =>
    (hreadS.child (mem_children_of_only? hcondition)).beneath (hbelow label (hlabels.subset hlabel))
  have hkept := (bodyKept_sublist t (t.listed branch .statements)).trans
    (t.listed_sublist branch .statements)
  refine pairwise_append.mpr ⟨?_, ?_, ?_⟩
  · refine (hapart.sublist hlabels).imp_of_mem ?_
    intro x y hx hy hxy
    exact h.renewed.held_apart (hlabelS x hx) (hlabelS y hy) hxy
      (h.renewed.standing (hlabelS x hx)).intact (h.renewed.standing (hlabelS y hy)).intact
      (Held.self (hlabelS x hx).has) (Held.self (hlabelS y hy).has)
  · exact ((h.renewed.standing hreadS).child (mem_children_of_only? hbranch)).intact.children_apart
      hkept
  · intro x hx y hy a hxa hya
    exact h.renewed.label_branch_apart hreadS hcondition (hbelow x (hlabels.subset hx)) hbranch a
      hxa (hya.below_child (hkept.subset hy))

theorem exists_origin (hkss : List.Forall₂ (Taken t) lowered.constantCases kss)
    (hk : k ∈ kss.flatten ++ bodyKept t (defaultStatements lowered)) :
    ∃ c ∈ between lowered, Held s t c k ∧ t.Intact k := by
  rcases mem_append.mp hk with hk | hk
  · obtain ⟨ks, hks, hk⟩ := mem_flatten.mp hk
    obtain ⟨read, hread, htaken⟩ := exists_of_forall₂ hkss hks
    obtain ⟨hintact, hheld, _⟩ := h.taken_held hread htaken hk
    exact ⟨read.statement, statement_of_case (filter_sublist.subset hread), hheld, hintact⟩
  · have hmem := (defaultStatements_sublist lowered).subset ((bodyKept_sublist _ _).subset hk)
    have hkS := h.standing_of_statement hmem
    exact ⟨k, hmem, Held.self hkS.has, (h.renewed.standing hkS).intact⟩

theorem bodies_apart (hkss : List.Forall₂ (Taken t) lowered.constantCases kss) :
    (kss.flatten ++ bodyKept t (defaultStatements lowered)).Pairwise t.Apart := by
  have hcases : lowered.cases.Pairwise fun x y => s.Apart x.statement y.statement :=
    pairwise_map.mp (pairwise_append.mp h.statements_apart).1
  refine pairwise_append.mpr ⟨pairwise_flatten.mpr ⟨?_, ?_⟩, ?_, ?_⟩
  · intro ks hks
    obtain ⟨read, hread, htaken⟩ := exists_of_forall₂ hkss hks
    exact h.taken_apart hread htaken
  · refine pairwise_of_forall₂ hkss (hcases.sublist filter_sublist) ?_
    intro x y ks ls hx hy hxy hks hls k hk l hl
    obtain ⟨hkI, hkH, _⟩ := h.taken_held hx hks hk
    obtain ⟨hlI, hlH, _⟩ := h.taken_held hy hls hl
    exact h.renewed.held_apart
      (h.standing_of_statement (statement_of_case (filter_sublist.subset hx)))
      (h.standing_of_statement (statement_of_case (filter_sublist.subset hy))) hxy hkI hlI hkH hlH
  · have hsub :=
      (bodyKept_sublist t (defaultStatements lowered)).trans (defaultStatements_sublist lowered)
    refine (h.statements_apart.sublist hsub).imp_of_mem ?_
    intro x y hx hy hxy
    have hxS := h.standing_of_statement (hsub.subset hx)
    have hyS := h.standing_of_statement (hsub.subset hy)
    exact h.renewed.held_apart hxS hyS hxy (h.renewed.standing hxS).intact
      (h.renewed.standing hyS).intact (Held.self hxS.has) (Held.self hyS.has)
  · intro k hk l hl
    obtain ⟨ks, hks, hk⟩ := mem_flatten.mp hk
    obtain ⟨read, hread, htaken⟩ := exists_of_forall₂ hkss hks
    obtain ⟨hkI, hkH, _⟩ := h.taken_held hread htaken hk
    obtain ⟨hread, hconstant⟩ := mem_filter.mp hread
    have hdefault := (bodyKept_sublist _ _).subset hl
    have hmem := (defaultStatements_sublist lowered).subset hdefault
    have hlS := h.standing_of_statement hmem
    refine h.renewed.held_apart (h.standing_of_statement (statement_of_case hread)) hlS
      (h.apart_of_ne (statement_of_case hread) hmem ?_) hkI (h.renewed.standing hlS).intact hkH
      (Held.self hlS.has)
    exact h.constant_not_default (mem_filter.mpr ⟨hread, hconstant⟩) hdefault

end

end Refreshed

namespace Stage

open Refreshed

section

variable (h : Stage s t f lowered first last assignment assigned subject waiting)

include h

/-- Nothing that goes into the rebuilt switch overlaps anything else that does. -/
theorem parts_apart (hkss : List.Forall₂ (Taken t) lowered.constantCases kss) :
    (waiting ++ subject :: (kss.flatten ++ bodyKept t (defaultStatements lowered))).Pairwise
      t.Apart := by
  have hsubject : ∀ x, Held s t assignment x → t.Intact x →
      ∀ k ∈ kss.flatten ++ bodyKept t (defaultStatements lowered), t.Apart x k := by
    intro x hx hxI k hk
    obtain ⟨c, hc, hheld, hkI⟩ := h.exists_origin hkss hk
    exact h.renewed.held_apart h.standing_assignment (h.standing_of_statement hc)
      (h.assignment_apart hc) hxI hkI hx hheld
  have hassignedI := (h.renewed.standing h.standing_assigned).intact
  have hinner :=
    pairwise_cons.mpr ⟨hsubject subject h.held_subject h.stands.intact, h.bodies_apart hkss⟩
  rcases h.waits with ⟨rfl, _⟩ | ⟨rfl, hnone, hnew⟩
  · exact hinner
  · refine pairwise_cons.mpr ⟨fun k hk => ?_, hinner⟩
    rcases mem_cons.mp hk with rfl | hk
    · -- The variable has taken the place of the value that waits.
      have hne : k ≠ assigned := fun heq => hnew (heq ▸ h.standing_assigned.has)
      have hassignmentT := h.renewed.standing h.standing_assignment
      refine Aside.apart ⟨fun hbad => h.not_beneath_assigned ?_, fun hbad => ?_⟩ hassignedI
        h.stands.intact
      · exact hassignedI.beneath_holder_of_child hassignmentT.intact (h.stands.of_parent h.held).2
          hbad hne
      · exact hne (h.stands.intact.eq_of_parent_none hbad hnone).symm
    · exact hsubject assigned h.held_assigned hassignedI k hk

theorem parts_ready (hloose : Loosened (Parted t lowered assignment) (Cut t lowered subject) t w)
    (hkss : List.Forall₂ (Taken t) lowered.constantCases kss)
    (htrimmed : ∀ read ∈ lowered.movingCases, ∃ branch tail,
      t.only? read.statement .thenBranch = some branch ∧ Trimmed t w branch tail) :
    PartsReady w
    ((waiting ++ subject :: (kss.flatten ++ bodyKept t (defaultStatements lowered))).map
        .whole) := by
  constructor
  · intro part hpart
    obtain ⟨k, hk, rfl⟩ := mem_map.mp hpart
    rw [mem_append, mem_cons, mem_append] at hk
    rcases hk with hk | rfl | hk | hk
    · rcases h.waits with ⟨rfl, _⟩ | ⟨rfl, _⟩
      · exact absurd hk (by simp)
      · rw [mem_singleton.mp hk]
        exact h.subject_ready hloose (h.renewed.standing h.standing_assigned).intact h.held_assigned
          h.not_beneath_assigned
    · exact h.subject_ready hloose h.stands.intact h.held_subject h.not_beneath_subject
    · obtain ⟨ks, hks, hk⟩ := mem_flatten.mp hk
      obtain ⟨read, hread, htaken⟩ := exists_of_forall₂ hkss hks
      obtain ⟨hintact, hheld, hspare⟩ := h.taken_held hread htaken hk
      exact h.constant_ready hloose hread hintact hheld hspare
    · rcases mem_append.mp ((bodyKept_sublist _ _).subset hk) with hk | hk
      · obtain ⟨read, hread, rfl⟩ := mem_map.mp hk
        obtain ⟨branch, tail, hbranch, htail⟩ := htrimmed read hread
        exact h.moving_ready hloose hread hbranch htail
      · exact h.default_ready hloose hk
  · rw [pairwise_map]
    refine (h.parts_apart hkss).imp ?_
    intro x y hxy a hxa hya
    have ha : t.Has a := (hloose.slots a hxa.2).has
    exact hxy a (hloose.beneath ha hxa.1) (hloose.beneath ha hya.1)

end

end Stage

end Switch

end UnitySharp
