import UnitySharp.Proofs.Switch.Rebuilt

/-!
# Putting a switch together

The renewals, the cuts, and the planting of the declaration and the switch.  What is planted is
drawn from within the block, so a rebuild disturbs nothing beyond it.
-/

namespace UnitySharp

open UnitySharp.Tree Pass List

namespace Switch

variable {s t u : Tree} {f : NodeId → NodeId} {lowered : LoweredSwitch}
  {first last assignment assigned subject a : NodeId} {waiting : List NodeId}

theorem castForLabels_keeping (t : Tree) (subject : NodeId) (labels : List NodeId) :
    Keeping [subject] [castForLabels t subject labels] := by
  unfold castForLabels
  split
  · exact .whole [subject]
  · split
    · split
      · exact .whole [subject]
      · exact .cast _ subject
    · exact .whole [subject]

/-! ## Sources -/

namespace Stage

variable (h : Stage s t f lowered first last assignment assigned subject waiting)

include h

theorem children_block : t.children lowered.block = t.listed lowered.block .statements := by
  have hblock := (h.renewed.standing h.block).has
  exact children_of_block (h.tidy_after _ hblock) ((h.renewed.kind_eq h.block).trans h.kind_block)

open Classical in
theorem exists_sources : ∃ tops, t.Sources lowered.block (t.listed lowered.block .statements) tops ∧
    (∀ a, s.Within lowered.block a → t.Drawn tops a) ∧
    ∀ a, s.Has a → t.Drawn tops a → s.Within lowered.block a := by
  let top (a : NodeId) : Prop := s.Within lowered.block a ∧
    (a ∈ t.listed lowered.block .statements ∨ t.parent a = none)
  have hmem : ∀ a, a ∈ ((List.range t.size).map NodeId.slot).filter top ↔ t.HasSlot a ∧ top a := by
    intro a
    rw [mem_filter, decide_eq_true_iff]
    refine and_congr_left fun _ => ⟨fun ha => ?_, fun ha => ?_⟩
    · obtain ⟨n, hn, rfl⟩ := mem_map.mp ha
      exact mem_range.mp hn
    · obtain ⟨n, rfl, hn⟩ := ha.exists_eq
      exact mem_map.mpr ⟨n, mem_range.mpr hn, rfl⟩
  have hstanding : ∀ {a}, s.Within lowered.block a → s.Standing a := fun ha => h.block.beneath ha.1
  refine ⟨((List.range t.size).map NodeId.slot).filter top, ?_, ?_, ?_⟩
  · intro a ha
    obtain ⟨_, hwithin, horigin⟩ := (hmem a).mp ha
    refine ⟨(h.renewed.standing (hstanding hwithin)).intact, fun hbad => ?_, horigin⟩
    have hback := h.renewed.beneath_back (hstanding hwithin) h.block.has hbad
    exact Within.not_above (hstanding hwithin).intact hback hwithin
  · -- Going up from a node, either the link has been cut or the holder is the next one up.
    rintro a ⟨hbelow, hne⟩
    induction hbelow with
    | refl => exact absurd rfl hne
    | @tail up a hup hchild ih =>
      have hupS := h.block.beneath hup
      have haS := hupS.child hchild
      have hwithin : s.Within lowered.block a := ⟨hup.tail hchild, hne⟩
      have hself : top a → t.Drawn (((List.range t.size).map NodeId.slot).filter top) a :=
        fun htop =>
        ⟨a, (hmem a).mpr ⟨(h.renewed.standing haS).intact.hasSlot, htop⟩, Beneath.refl⟩
      by_cases hfix : f a = a
      · have hchild' : a ∈ t.children up := by
          rw [h.renewed.children_eq hupS]
          exact mem_map.mpr ⟨a, hchild, hfix⟩
        by_cases heq : up = lowered.block
        · subst heq
          exact hself ⟨hwithin, Or.inl (h.children_block ▸ hchild')⟩
        · obtain ⟨top, htop, habove⟩ := ih heq
          exact ⟨top, htop, habove.tail hchild'⟩
      · exact hself ⟨hwithin, Or.inr (h.renewed.parent_gone haS hfix)⟩
  · rintro a ha ⟨b, hb, hbelow⟩
    obtain ⟨_, hwithin, _⟩ := (hmem b).mp hb
    exact hwithin.trans h.block.intact (h.renewed.beneath_back (hstanding hwithin) ha hbelow)

end Stage

/-! ## Assembly -/

/-- Everything is at hand for the rebuilt switch: `u` is the tree in which the spare breaks and the
subject have been cut out, and the drafts keep the subject and what is left of the statements. -/
structure Assembly (s t u : Tree) (f : NodeId → NodeId) (lowered : LoweredSwitch)
    (first last assignment assigned subject : NodeId) (waiting : List NodeId)
    (kss : List (List NodeId))
    (drafts : List Draft) : Prop extends Stage s t f lowered first last assignment assigned subject
      waiting where
  loosened : Loosened (Parted t lowered assignment) (Dropped t lowered subject) t u
  trimmed : ∀ read ∈ lowered.movingCases, ∃ branch tail,
    t.only? read.statement .thenBranch = some branch ∧ Trimmed t u branch tail
  taken : List.Forall₂ (Taken t) lowered.constantCases kss
  keeping : Keeping (waiting ++ subject :: (kss.flatten ++ bodyKept t (defaultStatements lowered)))
    drafts

namespace Assembly

variable {kss : List (List NodeId)} {drafts : List Draft} {tops : List NodeId}

def result (t u : Tree) (block : NodeId) (drafts : List Draft) : Tree :=
  let planted := plantAll (u.detachAll (t.listed block .statements)) block drafts
  planted.2.setRole block .statements (.many planted.1)

variable (h : Assembly s t u f lowered first last assignment assigned subject waiting kss drafts)

include h

theorem block_not_parted : ¬Parted t lowered assignment lowered.block := by
  rintro (⟨read, hread, hbranch⟩ | heq)
  · have hstatement := Refreshed.statement_of_case (filter_sublist.subset hread)
    exact h.renewed.held_off h.block (h.within_of_statement hstatement)
      (Held.self (h.standing_of_statement hstatement).has)
      (Beneath.of_child (mem_children_of_only? hbranch))
  · exact h.within_assignment.2 heq.symm

theorem kids_block : (u.node lowered.block).kids = (t.node lowered.block).kids :=
  h.loosened.kids_eq (h.renewed.standing h.block).has h.block_not_parted

theorem loosened_cut : Loosened (Parted t lowered assignment) (Cut t lowered subject) t
    (u.detachAll (t.listed lowered.block .statements)) :=
  (h.loosened.mono (fun _ hK => hK) fun _ => Or.inl).trans
    ((Loosened.detachAll _ _).mono (fun _ => False.elim) fun _ => Or.inr)

theorem trimmed_cut : ∀ read ∈ lowered.movingCases, ∃ branch tail,
    t.only? read.statement .thenBranch = some branch ∧
      Trimmed t (u.detachAll (t.listed lowered.block .statements)) branch tail := by
  intro read hread
  obtain ⟨branch, tail, hbranch, htrimmed⟩ := h.trimmed read hread
  have hmem : read ∈ lowered.cases := filter_sublist.subset hread
  have hbranchT :=
    (h.renewed.standing (h.standing_of_statement (Refreshed.statement_of_case hmem))).child
    (mem_children_of_only? hbranch)
  refine ⟨branch, tail, hbranch, htrimmed.mono (Loosened.detachAll _ _) ?_ id fun _ => id⟩
  exact h.loosened.keeps.has hbranchT.has

theorem ready :
    PartsReady (u.detachAll (t.listed lowered.block .statements)) (partsOfAll drafts) := by
  rw [h.keeping.parts]
  exact h.parts_ready h.loosened_cut h.taken h.trimmed_cut

theorem drawn (hinside : ∀ a, s.Within lowered.block a → t.Drawn tops a) {part : Part}
    (hpart : part ∈ partsOfAll drafts)
    (hcovers : part.Covers (u.detachAll (t.listed lowered.block .statements)) a)
    (ha : t.Has a) : t.Drawn tops a := by
  rw [h.keeping.parts] at hpart
  obtain ⟨k, hk, rfl⟩ := mem_map.mp hpart
  have hbelow : t.Beneath k a := h.loosened_cut.beneath ha hcovers.1
  have hheld : ∀ c, s.Within lowered.block c → Held s t c k → t.Drawn tops k := by
    rintro c hc (⟨hkHas, hck⟩ | hck)
    · exact hinside k (hc.trans h.block.intact hck)
    · obtain ⟨top, htop, habove⟩ := hinside c hc
      exact ⟨top, htop, habove.trans hck⟩
  have hk : t.Drawn tops k := by
    rw [mem_append, mem_cons] at hk
    rcases hk with hk | rfl | hk
    · rcases h.waits with ⟨rfl, _⟩ | ⟨rfl, _⟩
      · exact absurd hk (by simp)
      · rcases mem_singleton.mp hk with rfl
        exact hheld assignment h.within_assignment h.held_assigned
    · exact hheld assignment h.within_assignment h.held_subject
    · obtain ⟨c, hc, hck, _⟩ := h.exists_origin h.taken hk
      exact hheld c (h.within_of_statement hc) hck
  obtain ⟨top, htop, habove⟩ := hk
  exact ⟨top, htop, habove.trans hbelow⟩

section
variable (hinside : ∀ a, s.Within lowered.block a → t.Drawn tops a)
include hinside

theorem parted_drawn (ha : Parted t lowered assignment a) : t.Drawn tops a := by
  rcases ha with ⟨read, hread, hbranch⟩ | rfl
  · have hstatement := Refreshed.statement_of_case (filter_sublist.subset hread)
    obtain ⟨top, htop, habove⟩ := hinside _ (h.within_of_statement hstatement)
    exact ⟨top, htop, habove.tail (mem_children_of_only? hbranch)⟩
  · exact hinside _ h.within_assignment

theorem dropped_drawn (ha : Dropped t lowered subject a) : t.Drawn tops a := by
  rcases ha with ⟨read, hread, branch, hbranch, ha⟩ | ha | rfl
  · obtain ⟨top, htop, habove⟩ :=
      hinside _ (h.within_of_statement (Refreshed.statement_of_case hread))
    exact ⟨top, htop,
      (habove.tail (mem_children_of_only? hbranch)).tail (Refreshed.child_of_dropped ha)⟩
  · exact hinside a (h.within_of_statement
      ((Refreshed.defaultStatements_sublist lowered).subset (mem_of_mem_bodyDropped ha)))
  · obtain ⟨top, htop, habove⟩ := hinside _ h.within_assignment
    exact ⟨top, htop, habove.tail (h.stands.of_parent h.held).2⟩

end

theorem spared : Spared (s.Within lowered.block) s (result t u lowered.block drafts) := by
  obtain ⟨tops, hsources, hinside, hback⟩ := h.exists_sources
  have hblockT := h.renewed.standing h.block
  have hlaid := h.tidy_after _ hblockT.has
  have hkind := (h.renewed.kind_eq h.block).trans h.kind_block
  have hplanted := plantAll_planted _ lowered.block _ h.ready (h.keeping.laid _)
  have hprior : (kidsAt .statements (t.node lowered.block).kids).toList =
      [] ++ t.listed lowered.block .statements ++ [] := (append_nil _).symm
  have hspared : Spared (t.Drawn tops) t (result t u lowered.block drafts) :=
    h.loosened.spared hsources hblockT (fun _ => h.parted_drawn hinside)
      (fun _ => h.dropped_drawn hinside) (any_statements hlaid hkind) hprior (append_nil _).symm
      hplanted fun part hpart a => h.drawn hinside hpart
  exact (h.renewed.undisturbed _).trans hspared fun a ha hdrawn => hback a ha hdrawn

end Assembly

/-! ## Rebuilding -/

variable {s : Session}

theorem defaultSection_yields {statements : List NodeId} {post : List Draft → Session → Prop}
    (h : ∀ drafts after, Keeping (bodyKept s.tree statements) drafts →
      Loosened (fun _ => False) (· ∈ bodyDropped s.tree statements) s.tree after.tree →
        post drafts after) :
    Yields (defaultSection statements) s post := by
  unfold defaultSection
  split
  · rename_i hempty
    rw [List.isEmpty_iff.mp hempty] at h
    exact Yields.pure (h [] s .none (Loosened.refl _))
  · refine Yields.bind (closed_yields fun body after hbody hafter => Yields.pure (h _ after ?_ ?_))
    · exact Keeping.none.inSection hbody
    · rw [hafter]
      exact Loosened.detachAll _ _

theorem chooseSubject_yields (htidy : s.tree.Tidy) (hassignment : s.tree.Standing assignment)
    (hvalue : s.tree.only? assignment .right = some assigned) :
    Yields (chooseSubject lowered assignment assigned) s fun result after => ∃ f waiting,
      Renewed f s.tree after.tree ∧ Keeping waiting result.1 ∧ after.tree.Standing result.2 ∧
        after.tree.parent result.2 = some assignment ∧
        ((waiting = [] ∧ result.2 = assigned) ∨
          (waiting = [assigned] ∧ f assigned ≠ assigned ∧ ¬s.tree.Has result.2)) := by
  have hchild := mem_children_of_only? hvalue
  refine Yields.read ?_
  split
  · refine Yields.bind ((keepSubject_yields htidy hassignment hvalue).mono ?_)
    rintro ⟨declaration, subject⟩ after ⟨f, hf, himage, hne, hparent, symbol, type, rfl⟩
    have hmoved : f assigned ≠ assigned := himage.symm ▸ hne
    obtain ⟨hstanding, hnew⟩ := hf.new assigned (hassignment.child hchild).has hmoved
    rw [himage] at hstanding hnew
    refine Yields.pure ⟨f, [assigned], hf, ⟨fun u => ?_, ?_⟩, hstanding, hparent,
      Or.inr ⟨rfl, hmoved, hnew subject Beneath.refl⟩⟩
    · exact ⟨declaration_laid _ _ _ _ trivial, trivial⟩
    · simp [declaration_parts]
  · exact Yields.pure ⟨_, [], Renewed.refl _, .none, hassignment.child hchild,
      hassignment.intact.parent_child hchild, Or.inl ⟨rfl, rfl⟩⟩

theorem refresh_yields (htidy : s.tree.Tidy) (hblock : s.tree.Standing lowered.block)
    (hsubject : s.tree.Standing subject)
    (hcases : ∀ read ∈ lowered.movingCases, s.tree.Standing read.statement) :
    Yields (refresh lowered subject) s fun _ after => ∃ f, Renewed f s.tree after.tree := by
  refine Yields.bind
    ((Yields.forM (fun after => ∃ f, Renewed f s.tree after.tree) ⟨_, Renewed.refl _⟩ ?_).mono ?_)
  · rintro read hread middle ⟨f, hf⟩
    refine (restoreSubject_yields ((hf.undisturbed fun _ => False).tidy htidy)
      (hf.standing hsubject) (hf.standing (hcases read hread))).mono ?_
    rintro _ after ⟨g, hg⟩
    exact ⟨_, hf.trans hg⟩
  · rintro _ middle ⟨f, hf⟩
    refine Yields.read ?_
    refine (breakOut_yields ((hf.undisturbed fun _ => False).tidy htidy) ?_).mono ?_
    · intro a ha
      exact (hf.standing hblock).beneath (beneath_of_mem_walk (mem_filter.mp ha).1)
    · rintro _ after ⟨g, hg⟩
      exact ⟨_, hf.trans hg⟩

theorem Refreshed.cases_apart {s : Tree} (h : Refreshed s t f lowered first last) :
    lowered.cases.Pairwise fun x y => t.Apart x.statement y.statement := by
  have hcases : lowered.cases.Pairwise fun x y => s.Apart x.statement y.statement :=
    pairwise_map.mp (pairwise_append.mp h.statements_apart).1
  refine hcases.imp_of_mem ?_
  intro x y hx hy hxy
  have hxS := h.standing_of_statement (Refreshed.statement_of_case hx)
  have hyS := h.standing_of_statement (Refreshed.statement_of_case hy)
  exact h.renewed.held_apart hxS hyS hxy (h.renewed.standing hxS).intact
    (h.renewed.standing hyS).intact (Held.self hxS.has) (Held.self hyS.has)

theorem assemble_yields {s₀ : Tree} {f : NodeId → NodeId} {lowered : LoweredSwitch}
    {first last assignment assigned subject : NodeId} {waiting : List NodeId} {opening : List Draft}
    {type : Option Ty} (h : Refreshed s₀ s.tree f lowered first last)
    (hsets : s₀.only? first .expression = some assignment)
    (hvalue : s₀.only? assignment .right = some assigned) (hopens : Keeping waiting opening)
    (hstands : s.tree.Standing subject)
    (hheld : s.tree.parent subject = some assignment ∨ s.tree.parent subject = none)
    (hwaits : (waiting = [] ∧ subject = assigned) ∨
      (waiting = [assigned] ∧ s.tree.parent assigned = none ∧ ¬s₀.Has subject)) :
    Yields (assemble lowered first type opening subject) s fun _ after => ∃ u kss drafts,
      Assembly s₀ s.tree u f lowered first last assignment assigned subject waiting kss drafts ∧
        after.tree = Assembly.result s.tree u lowered.block drafts := by
  have htidy := h.tidy_after
  have hstatement : ∀ read ∈ lowered.movingCases, s.tree.Standing read.statement :=
    fun read hread =>
    h.renewed.standing (h.standing_of_statement
      (Refreshed.statement_of_case (filter_sublist.subset hread)))
  refine Yields.bind (sections_yields.mono ?_)
  rintro sections divided ⟨⟨gone, hgone, hspare⟩, kss, htaken, hsections⟩
  have hdivided : Loosened (fun _ => False) (Dropped s.tree lowered subject) s.tree
    divided.tree := by
    rw [hgone]
    refine (Loosened.detachAll _ _).mono (fun _ => False.elim) fun a ha => Or.inl ?_
    obtain ⟨read, hread, hrest⟩ := hspare a ha
    exact ⟨read, filter_sublist.subset hread, hrest⟩
  refine Yields.bind ((closeBranches_yields htidy hdivided hstatement
    (h.cases_apart.sublist filter_sublist) fun _ _ => ⟨id, fun _ _ => id⟩).mono ?_)
  rintro _ closed ⟨hclosed, htrimmed⟩
  have hsofar : Loosened (Parted s.tree lowered assignment) (Dropped s.tree lowered subject) s.tree
      closed.tree := by
    refine (hdivided.mono (fun _ => False.elim) fun _ hP => hP).trans
      (hclosed.mono (fun _ => Or.inl) ?_)
    rintro a ⟨read, hread, hrest⟩
    exact Or.inl ⟨read, filter_sublist.subset hread, hrest⟩
  have hkinds : ∀ a ∈ defaultStatements lowered, closed.tree.kind a = s.tree.kind a := fun a ha =>
    congrArg Shape.kind (hsofar.shape_eq (h.renewed.has
      (h.standing_of_statement ((Refreshed.defaultStatements_sublist lowered).subset ha)).has))
  refine Yields.bind (defaultSection_yields fun defaults rested hrests hrested => ?_)
  change Keeping (bodyKept closed.tree (defaultStatements lowered)) defaults at hrests
  change Loosened _ (· ∈ bodyDropped closed.tree (defaultStatements lowered)) _ _ at hrested
  rw [bodyKept_congr hkinds] at hrests
  rw [bodyDropped_congr hkinds] at hrested
  have hsofar' : Loosened (Parted s.tree lowered assignment) (Dropped s.tree lowered subject) s.tree
      rested.tree :=
    hsofar.trans (hrested.mono (fun _ => False.elim) fun _ ha => Or.inr (Or.inl ha))
  refine Yields.bind (Yields.remove fun cut hcut => ?_)
  obtain ⟨p, hp, hremoved, _⟩ := Loosened.remove hcut
  -- The subject can only be taken out of the assignment that it has been in all along.
  have hkept : rested.tree.parent subject = s.tree.parent subject := by
    rcases hsofar'.parent_or hstands.has with ⟨_, hnone⟩ | hsame
    · rw [hnone] at hp
      exact absurd hp (by simp)
    · exact hsame
  have hparent : s.tree.parent subject = some assignment := by
    rcases hheld with hheld | hnone
    · exact hheld
    · rw [hkept, hnone] at hp
      exact absurd hp (by simp)
  have heq : p = assignment := Option.some.inj (hp.symm.trans (hkept.trans hparent))
  subst heq
  have hstage : Stage s₀ s.tree f lowered first last p assigned subject waiting :=
    { h with sets := hsets, value := hvalue, held := hparent, stands := hstands, waits := hwaits }
  have hlate : Loosened (· = p) (fun a => a ∈ bodyDropped s.tree (defaultStatements lowered) ∨
      a = subject) closed.tree cut :=
    (hrested.mono (fun _ => False.elim) fun _ => Or.inl).trans (hremoved.mono (fun _ heq => heq)
      fun _ => Or.inr)
  have htrimmed' : ∀ read ∈ lowered.movingCases, ∃ branch tail,
      s.tree.only? read.statement .thenBranch = some branch ∧ Trimmed s.tree cut branch tail := by
    intro read hread
    obtain ⟨branch, tail, hbranch, htrim⟩ := htrimmed read hread
    have hbranchS := (hstatement read hread).child (mem_children_of_only? hbranch)
    refine ⟨branch, tail, hbranch, htrim.mono hlate (hsofar.keeps.has hbranchS.has) ?_ ?_⟩
    · rintro rfl
      have hmem := Refreshed.statement_of_case (filter_sublist.subset hread)
      exact h.renewed.held_not_beneath hstage.standing_assignment (h.standing_of_statement hmem)
        (hstage.assignment_apart hmem) (h.renewed.standing hstage.standing_assignment).intact
        (Held.self hstage.standing_assignment.has) (Refreshed.held_branch hbranch) Beneath.refl
    · rintro n rfl
      exact hstage.standing_assignment.intact.hasSlot
  have hassembly : Assembly s₀ s.tree cut f lowered first last p assigned subject waiting kss
      (opening ++ [.fresh .switchStatement (cut.position first)
        [(.subject, .one (castForLabels cut subject (lowered.cases.flatMap (·.labels)))),
          (.sections, .many (sections ++ defaults))]]) :=
    { hstage with
      loosened := hsofar'.trans (hremoved.mono (fun _ => Or.inr) fun _ heq => Or.inr (Or.inr heq))
      trimmed := htrimmed', taken := htaken
      keeping := hopens.append ((castForLabels_keeping _ _ _).inSwitch (hsections.append hrests)) }
  refine Yields.read ?_
  refine Yields.bind (Yields.edit fun ids final hrefill => ?_)
  refine Yields.say fun after hafter => ⟨cut, kss, _, hassembly, ?_⟩
  obtain ⟨prior, _, hprior, rfl, rfl⟩ := refill_ok hrefill
  have hlisted : s.tree.listed lowered.block .statements = prior := by
    rw [← listed_eq_of_many hprior, listed, listed, Node.kidList, Node.kidList, Node.kid, Node.kid,
      hassembly.kids_block]
  rw [hafter, Assembly.result, hlisted]

theorem rebuild_yields (htidy : s.tree.Tidy) (hblock : s.tree.Standing lowered.block)
    (hkind : s.tree.kind lowered.block = .block) (hlowers : s.tree.Lowers lowered first last) :
    Yields (rebuild lowered) s fun _ after =>
      Spared (s.tree.Within lowered.block) s.tree after.tree := by
  have hinitial : Refreshed s.tree s.tree (fun c => c) lowered first last :=
    ⟨htidy, hblock, hkind, hlowers, Renewed.refl _⟩
  unfold rebuild
  refine Yields.read ?_
  rw [hlowers.listed]
  refine Yields.bind (Yields.pure ?_)
  refine Yields.bind (Yields.child fun assignment hsets => ?_)
  refine Yields.bind (Yields.child fun assigned hvalue => ?_)
  refine Yields.bind (Yields.typeAt fun type => ?_)
  have hassignment : s.tree.Standing assignment :=
    (hblock.child (hinitial.statements_sublist.subset mem_cons_self)).child
      (mem_children_of_only? hsets)
  refine Yields.bind ((chooseSubject_yields htidy hassignment hvalue).mono ?_)
  rintro ⟨opening, subject⟩ chosen ⟨f, waiting, hf, hopens, hstands, hparent, hwaits⟩
  refine Yields.bind
    ((refresh_yields ((hf.undisturbed fun _ => False).tidy htidy) (hf.standing hblock) hstands
      ?_).mono ?_)
  · exact fun read hread => hf.standing (hinitial.standing_of_statement
      (Refreshed.statement_of_case (filter_sublist.subset hread)))
  rintro _ refreshed ⟨g, hg⟩
  have hfg := hf.trans hg
  refine (assemble_yields ⟨htidy, hblock, hkind, hlowers, hfg⟩ hsets hvalue hopens
    (hg.standing hstands) ?_ ?_).mono ?_
  · by_cases hfix : g subject = subject
    · exact Or.inl ((hg.parent_kept hstands hfix).trans hparent)
    · exact Or.inr (hg.parent_gone hstands hfix)
  · refine hwaits.imp_right ?_
    rintro ⟨hwaiting, hmoved, hnew⟩
    have hassigned := hassignment.child (mem_children_of_only? hvalue)
    exact ⟨hwaiting, hfg.parent_gone hassigned fun hfix =>
      hmoved (hf.fixed_of_comp hg hassigned.has hfix), hnew⟩
  · rintro _ after ⟨u, kss, drafts, hassembly, hafter⟩
    exact hafter ▸ hassembly.spared

theorem rebuildRule_visits {visit : NodeId → Pass Unit} (hvisit : Visits Reach visit) :
    Visits Reach (rebuildRule visit) := by
  intro s id htidy hid
  have hunchanged := descend_finish hvisit htidy hid (Spared.refl _ s.tree)
  refine Yields.read ?_
  simp only
  split
  · rename_i hkind
    refine Yields.bind (Yields.ofExcept fun found hfound => ?_)
    cases found with
    | none => exact hunchanged
    | some lowered =>
      obtain ⟨rfl, first, last, hlowers⟩ := loweredSwitch?_ok hfound
      exact Yields.bind ((rebuild_yields htidy hid hkind hlowers).mono fun _ _ =>
        descend_finish hvisit htidy hid)
  · exact hunchanged

end Switch

end UnitySharp
