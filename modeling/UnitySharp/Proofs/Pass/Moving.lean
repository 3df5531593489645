import Mathlib.Data.List.TakeWhile
import UnitySharp.Proofs.Pass.Rewriting
import UnitySharp.Proofs.Pass.Settling

/-!
# Rules that move statements

The rules of this file take statements out of one block and put them into another.  What has been
taken out stands on its own in between, aside from the block that it goes to.
-/

namespace UnitySharp

open UnitySharp.Tree Pass List

variable {s : Session} {id : NodeId} {visit : NodeId → Pass Unit} {t : Tree}

namespace EntryPoint

theorem parameterless?_mem {name : String} {member : NodeId}
    (h : t.parameterless? id name = some member) :
    member ∈ t.children id :=
  (t.listed_sublist id .members).subset (mem_of_find?_eq_some h)

theorem parameterless?_ne {name other : String} {first second : NodeId} (hne : name ≠ other)
    (hfirst : t.parameterless? id name = some first)
    (hsecond : t.parameterless? id other = some second) :
    first ≠ second := by
  rintro rfl
  have hname := find?_some hfirst
  have hother := find?_some hsecond
  split at hname
  · rename_i head hshape
    simp only [hshape, Bool.and_eq_true] at hother
    cases hhead : head.name with
    | text text =>
      simp only [hhead, Name.is, Bool.and_eq_true, beq_iff_eq] at hname hother
      exact hne (hname.1.symm.trans hother.1)
    | other value => simp [hhead, Name.is] at hname
  · exact absurd hname (by simp)

theorem merge_yields {main start : NodeId} (htidy : s.tree.Tidy) (hid : s.tree.Standing id)
    (hmain : main ∈ s.tree.children id) (hstart : start ∈ s.tree.children id) (hne : main ≠ start) :
    Yields (merge main start) s fun _ after => Spared (s.tree.Within id) s.tree after.tree := by
  have hmainS := hid.child hmain
  have hstartS := hid.child hstart
  have hapart : ∀ {a}, s.tree.Beneath main a → ¬s.tree.Beneath start a :=
    hid.intact.siblings_apart hmain hstart hne
  refine Yields.bind (Yields.child fun mainBody hmainBody => ?_)
  have hmainBody := mem_children_of_only? hmainBody
  refine Yields.bind (Yields.statementsOf fun _ => ?_)
  have hmoved := s.tree.listed_sublist mainBody .statements
  have hmovedW : ∀ m ∈ s.tree.listed mainBody .statements, s.tree.Within main m := fun m hm =>
    hmainS.intact.within_of_child hmainBody (Beneath.of_child (hmoved.subset hm))
  refine Yields.bind (clear_yields (hmainS.child hmainBody) fun _ cleared hcleared hcut => ?_)
  refine Yields.bind (Yields.child fun startBody hstartBody => ?_)
  refine Yields.bind (Yields.statementsOf fun _ => ?_)
  have hstartBody := mem_children_of_only? hstartBody
  have hstart' := hstartS.of_undisturbed hcleared
  have hbody := hstart'.child hstartBody
  -- What has been taken out of one method is neither above nor beneath anything of the other.
  have hmoved' : ∀ m ∈ s.tree.listed mainBody .statements, cleared.tree.Intact m ∧
      cleared.tree.parent m = none ∧ ¬cleared.tree.Beneath m startBody := by
    intro m hm
    have hmS := hmainS.beneath (hmovedW m hm).1
    have hintact := (hmS.of_undisturbed hcleared).intact
    refine ⟨hintact, hcut m hm, fun hbelow => ?_⟩
    rcases hintact.comparable hstart'.intact hbelow (Beneath.of_child hstartBody) with hms | hsm
    · have hback := Spared.beneath_of_undisturbed hcleared hmS hstartS.has hms
      exact hapart ((hmovedW m hm).1.trans hback) Beneath.refl
    · exact hapart (hmovedW m hm).1 (Spared.beneath_of_undisturbed hcleared hstartS hmS.has hsm)
  refine Yields.bind
    (refill_kept_yields hbody (fun prior hprior =>
      Supplied.of_moved _ _ _ hbody.intact hmoved'
    ((hmainS.child hmainBody).intact.nodup.sublist hmoved)
    (cleared.tree.listed_sublist startBody .statements) (by simp [hprior])) fun filled hedited =>
    ?_)
  have hdrawn : ∀ a, s.tree.Has a → cleared.tree.Drawn (s.tree.listed mainBody .statements ++
      cleared.tree.listed startBody .statements) a →
      s.tree.Beneath start a ∨ ∃ m, s.tree.Within main m ∧ s.tree.Beneath m a := by
    rintro a ha ⟨top, htop, hbelow⟩
    rcases mem_append.mp htop with htop | htop
    · have hback := Spared.beneath_of_undisturbed hcleared (hmainS.beneath (hmovedW top htop).1) ha
        hbelow
      exact Or.inr ⟨top, hmovedW top htop, hback⟩
    · refine Or.inl (Spared.beneath_of_undisturbed hcleared hstartS ha ?_)
      exact (hbelow.below_child ((cleared.tree.listed_sublist _ _).subset htop)).below_child
        hstartBody
  have hwithin : Spared (s.tree.Within id) s.tree filled.tree := by
    refine (hcleared _).trans hedited.spared fun a ha hdisturbed => ?_
    rcases hdrawn a ha hdisturbed with hbelow | ⟨m, hm, hbelow⟩
    · exact hid.intact.within_of_child hstart hbelow
    · exact hid.intact.within_of_child hmain (hm.1.trans hbelow)
  have hmainFree : ¬cleared.tree.Drawn (s.tree.listed mainBody .statements ++
      cleared.tree.listed startBody .statements) main := by
    intro hdisturbed
    rcases hdrawn main hmainS.has hdisturbed with hbelow | ⟨m, hm, hbelow⟩
    · exact hapart Beneath.refl hbelow
    · exact Within.not_above (hmainS.beneath hm.1).intact hbelow hm
  have hmain' : filled.tree.Standing main :=
    hedited.spared.standing main (hmainS.of_undisturbed hcleared) hmainFree
  refine Yields.bind (remove_yields (hwithin.tidy htidy) hmain' fun _ removed _ hremoved => ?_)
  refine Yields.read ?_
  refine Yields.say fun after hafter => ?_
  rw [hafter]
  exact hwithin.trans (hremoved.undisturbed fun _ => False) fun _ _ hfalse => hfalse.elim

theorem rule_visits (hvisit : Visits Reach visit) : Visits Reach (rule visit) := by
  intro s id htidy hid
  have hunchanged := descend_finish hvisit htidy hid (Spared.refl _ s.tree)
  refine Yields.read ?_
  simp only
  split
  · split
    · rename_i main hmain
      refine Yields.bind (Yields.child fun mainBody _ => ?_)
      refine Yields.bind (Yields.statementsOf fun _ => ?_)
      split
      · split
        · rename_i start hstart
          refine Yields.bind ((merge_yields htidy hid (parameterless?_mem hmain)
            (parameterless?_mem hstart) (parameterless?_ne (by decide) hmain hstart)).mono ?_)
          exact fun _ middle hmiddle => descend_finish hvisit htidy hid hmiddle
        · refine Yields.bind (reshape_yields (kind_mapName _ _) fun middle _ hmiddle => ?_)
          exact descend_finish hvisit htidy hid (hmiddle _)
      · exact hunchanged
    · exact hunchanged
  · exact hunchanged

end EntryPoint

namespace FieldGuards

variable {block landing branch : NodeId} {label : Name} {front moved tail : List NodeId}
  {middle : Session} {t' : Tree}

def Around (t : Tree) (id a : NodeId) : Prop :=
  t.Within ((t.parent id).getD id) a

theorem local_around : Local Around := by
  intro t id child a hid hchild haround
  simpa [Around, hid.intact.parent_child hchild] using haround

theorem not_around_root (htop : t.parent t.root = none) : ¬Around t t.root t.root := by
  simp [Around, htop, Within]

theorem descend_around (hvisit : Visits Around visit) (htidy : s.tree.Tidy)
    (hid : s.tree.Standing id) (hmiddle : Spared (Around s.tree id) s.tree middle.tree)
    (hid' : middle.tree.Standing id) (hparent : middle.tree.parent id = s.tree.parent id) :
    Yields (descend visit id) middle fun _ after =>
      Spared (Around s.tree id) s.tree after.tree := by
  refine (descend_yields hvisit local_around (hmiddle.tidy htidy) hid').mono fun _ after hafter =>
    ?_
  refine hmiddle.trans hafter fun a ha hwithin => ?_
  unfold Around at hmiddle ⊢
  cases hup : s.tree.parent id with
  | none =>
    rw [hup] at hmiddle
    exact hmiddle.within_of_within hid ha hwithin
  | some up =>
    rw [hup] at hmiddle hparent
    obtain ⟨hupS, hchild⟩ := hid'.of_parent hparent
    exact hmiddle.within_of_within (hid.of_parent hup).1 ha
      (hupS.intact.within_of_child hchild hwithin.1)

/-- A guard in a block, the label that it jumps to further on, and what stands around them. -/
structure Ahead (t : Tree) (block id landing : NodeId) (label : Name)
    (front moved tail : List NodeId) : Prop where
  listed : t.listed block .statements = front ++ id :: (moved ++ landing :: tail)
  between : ∀ statement ∈ moved, isLabelNamed t label statement = false
  lands : isLabelNamed t label landing = true

theorem ahead_or_not (t : Tree) (label : Name) (hmem : id ∈ t.listed block .statements) :
    (∃ landing front moved tail, Ahead t block id landing label front moved tail) ∨
      ∃ front rest, t.listed block .statements = front ++ id :: rest ∧
        ∀ statement ∈ rest, isLabelNamed t label statement = false := by
  obtain ⟨front, rest, hlisted⟩ := append_of_mem hmem
  cases hfind : rest.find? (isLabelNamed t label) with
  | none =>
    right
    exact ⟨front, rest, hlisted, by simpa using hfind⟩
  | some landing =>
    left
    obtain ⟨hlands, moved, tail, rfl, hbetween⟩ := find?_eq_some_iff_append.mp hfind
    exact ⟨landing, front, moved, tail, hlisted, by simpa using hbetween, hlands⟩

def turn (block id : NodeId) (kept moved : List NodeId) : Pass Unit := do
  let _ ← Pass.refill block .statements (kept.map .kept)
  let _ ← Pass.refill (← Pass.child id .thenBranch) .statements (moved.map .kept)
  let condition ← Pass.child id .condition
  let _ ← Pass.replace condition (.unary "not" (.kept condition) (some Ty.bool) none)

section

variable (hid : s.tree.Standing id) (hparent : s.tree.parent id = some block) {rest : List NodeId}

include hid hparent

theorem split_guard (hlisted : s.tree.listed block .statements = front ++ id :: rest) :
    (front ++ id :: rest).take ((front ++ id :: rest).idxOf id + 1) = front ++ [id] ∧
      (front ++ id :: rest).drop ((front ++ id :: rest).idxOf id + 1) = rest := by
  have hnodup :=
    (hlisted ▸ s.tree.listed_sublist block .statements).nodup (hid.of_parent hparent).1.intact.nodup
  have hfront : id ∉ front := fun hmem =>
    (nodup_append.mp hnodup).2.2 id hmem id mem_cons_self rfl
  rw [idxOf_append_of_notMem hfront, idxOf_cons_self]
  simp [take_append, take_of_length_le]

theorem invert_of_ahead (hkind : s.tree.kind block = .block)
    (h : Ahead s.tree block id landing label front moved tail) :
    invert id label s = turn block id (front ++ id :: tail) moved s := by
  have htake :
    (moved ++ landing :: tail).takeWhile (fun statement => !isLabelNamed s.tree label statement) =
    moved := by
    rw [takeWhile_append_of_pos (by simpa using h.between), takeWhile_cons, h.lands]
    simp
  obtain ⟨hfront, hrest⟩ := split_guard hid hparent h.listed
  rw [invert, run_tree, hparent]
  simp only [Option.filter, hkind, beq_self_eq_true, if_true, h.listed, hfront, hrest, htake]
  simp [turn]

theorem invert_of_not_ahead (hkind : s.tree.kind block = .block)
    (hlisted : s.tree.listed block .statements = front ++ id :: rest)
    (h : ∀ statement ∈ rest, isLabelNamed s.tree label statement = false) : invert id label s = .ok
    () s := by
  have htake : rest.takeWhile (fun statement => !isLabelNamed s.tree label statement) = rest := by
    rw [takeWhile_eq_self_iff]
    simpa using h
  obtain ⟨hfront, hrest⟩ := split_guard hid hparent hlisted
  rw [invert, run_tree, hparent]
  simp only [Option.filter, hkind, beq_self_eq_true, if_true, hlisted, hrest, htake, lt_irrefl,
    if_false]
  rfl

end

/-- The statements between a guard and its label have moved into the guard.  They, the statements
around them and the condition of the guard are as they were. -/
structure Moved (t t' : Tree) (block id branch : NodeId) (kept moved : List NodeId) : Prop where
  spared : Spared (t.Within block) t t'
  standing : t'.Standing block
  guard : id ∈ t'.children block
  statements : t'.listed block .statements = kept
  kids_eq : (t'.node id).kids = (t.node id).kids
  body : t'.listed branch .statements = moved
  reads : ∀ known term, (∀ a, known a → t.Has a) →
    ∀ a, a ∈ kept ∧ a ≠ id ∨ a ∈ moved ∨ t.only? id .condition = some a → t.Reads known term a →
      t'.Reads known term a

theorem refill_moves {cut : Tree} {kept : List NodeId} (hblock : t.Standing block)
    (hkept : kept.Sublist (t.listed block .statements)) (hguard : id ∈ kept)
    (hmoved : moved.Sublist (t.listed block .statements)) (hapart : ∀ m ∈ moved, m ∉ kept)
    (hbranch : cut.only? id .thenBranch = some branch)
    (hcut : Refilled t cut block .statements kept)
    (hfill : cut.refill branch .statements (moved.map .kept) = .ok (ids, t')) :
    Moved t t' block id branch kept moved := by
  have hlisted := t.listed_sublist block .statements
  have hdropped := fun m hm => hcut.dropped hblock hkept (hmoved.subset hm) (hapart m hm)
  have hkids : (cut.node id).kids = (t.node id).kids :=
    hcut.edited.wholes id (mem_map_of_mem hguard)
      (hblock.child (hlisted.subset (hkept.subset hguard))).intact id Beneath.refl
  have honly : ∀ role, cut.only? id role = t.only? id role := fun role => by
    simp only [only?, Node.kid, hkids]
  have hblock' := hcut.edited.standing_parent hblock
  have hid' : id ∈ cut.children block := hcut.edited.listed hguard
  have hidS := hblock'.child hid'
  have hbranch' := mem_children_of_only? hbranch
  have hwithin : cut.Within block branch :=
    hblock'.intact.within_of_child hid' (Beneath.of_child hbranch')
  have hfill := refill_refilled (hblock'.beneath hwithin.1) (by
    simpa using Supplied.of_moved moved [] (cut.listed branch .statements)
      (hblock'.beneath hwithin.1).intact (fun m hm =>
        ⟨(hdropped m hm).1, (hdropped m hm).2.1, (hdropped m hm).2.2.1 branch hwithin.1⟩)
      (hmoved.trans hlisted |>.nodup hblock.intact.nodup) (nil_sublist _) (by simp)) hfill
  have hfree : ∀ b, cut.Beneath block b → ¬cut.Drawn moved b := by
    rintro b hb ⟨m, hm, hbelow⟩
    exact (hdropped m hm).2.2.1 b hb hbelow
  -- What is above the branch is not among its statements.
  have hframe : ∀ a, cut.Beneath block a → a ≠ branch → cut.Beneath a branch →
    t'.node a = cut.node a := by
    intro a ha hne hbelow
    refine hfill.edited.frame a (hblock'.beneath ha).has (hfree a ha) (fun hmem => ?_) hne
    exact (hblock'.beneath hwithin.1).intact.not_beneath_of_child
      ((cut.listed_sublist _ _).subset hmem) hbelow
  have hnodeBlock := hframe block Beneath.refl hwithin.2.symm hwithin.1
  have hnodeId :=
    hframe id (Beneath.of_child hid') (fun heq => hidS.intact.not_own_child (heq ▸ hbranch'))
    (Beneath.of_child hbranch')
  refine ⟨?_, hfill.edited.spared.standing block hblock' (hfree block Beneath.refl), ?_, ?_, ?_,
    hfill.listed, ?_⟩
  · refine (hcut.edited.spared.mono ?_).trans hfill.edited.spared ?_
    · rintro a _ ⟨top, htop, hbelow⟩
      exact hblock.intact.within_of_child (hlisted.subset (hkept.subset htop)) hbelow
    · rintro a ha ⟨m, hm, hbelow⟩
      have hchild := hlisted.subset (hmoved.subset hm)
      by_cases hdrawn : t.Drawn kept m
      · obtain ⟨top, htop, hbelow'⟩ := hdrawn
        exact absurd Beneath.refl (hblock.intact.siblings_apart (hlisted.subset (hkept.subset htop))
          hchild (fun heq => hapart m hm (heq ▸ htop)) hbelow')
      · rcases hcut.edited.spared.beneath m a (hblock.child hchild) hdrawn hbelow
          ha with hbefore | ⟨top, htop, hbelow⟩
        · exact hblock.intact.within_of_child hchild hbefore
        · exact hblock.intact.within_of_child (hlisted.subset (hkept.subset htop)) hbelow
  · rwa [children, hnodeBlock]
  · rw [listed, hnodeBlock]
    exact hcut.listed
  · rw [hnodeId, hkids]
  · intro known term hknown a ha hread
    have hhas : ∀ a, known a → cut.Has a := fun a h => hcut.edited.spared.keeps.has (hknown a h)
    -- A subtree of the block that the branch is not in keeps its nodes.
    have houtside : cut.Reads known term a → cut.Beneath block a →
        (∀ b, cut.Beneath a b → b ≠ branch) → t'.Reads known term a := fun hread hbelow hne =>
      hfill.edited.reads_outside hread fun b hb => ⟨hfree b (hbelow.trans hb), hne b hb⟩
    rcases ha with ⟨ha, hne⟩ | ha | ha
    · have hchild := hcut.edited.listed ha
      refine houtside (hcut.reads known term hknown a ha hread) (Beneath.of_child hchild) ?_
      rintro b hb rfl
      exact hblock'.intact.siblings_apart hchild hid' hne hb (Beneath.of_child hbranch')
    · exact hfill.reads known term hhas a ha ((hdropped a ha).2.2.2 known term hread)
    · obtain ⟨⟨origin, face, kids⟩, hguardTerm⟩ := Reads.exists_of_intact known
        (hblock.child (hlisted.subset (hkept.subset hguard))).intact
      obtain ⟨held, hheld, hread'⟩ := hguardTerm.only ha
      have ha' := (honly _).trans ha
      obtain ⟨held', hheld', hread''⟩ := (hcut.reads known _ hknown id hguard hguardTerm).only ha'
      rw [hheld] at hheld'
      cases hheld'
      have hchild := mem_children_of_only? ha'
      refine houtside (hread.unique hread' ▸ hread'')
        ((Beneath.of_child hid').trans (Beneath.of_child hchild)) ?_
      rintro b hb rfl
      exact hidS.intact.siblings_apart hchild hbranch'
        (only?_ne hidS.intact (by decide) ha' hbranch) hb Beneath.refl

/-- A guard has been turned around: it tests the opposite, and its branch has the statements that
stood between it and the label.  They, the statements that stay in the block and what the guard
tested are as they were. -/
structure Inverted (t t' : Tree) (block id : NodeId) (front moved tail : List NodeId) : Prop where
  statements : t'.listed block .statements = front ++ id :: tail
  lacks_else : t'.lacks id .elseBranch = t.lacks id .elseBranch
  branch : ∃ branch, t.only? id .thenBranch = some branch ∧ t'.only? id .thenBranch = some branch ∧
    t'.kind branch = t.kind branch ∧ t'.listed branch .statements = moved
  condition : ∃ condition negation, t.only? id .condition = some condition ∧
    t'.only? id .condition = some negation ∧
    t'.shape negation = .unary "not" (.bool false) (some Ty.bool) ∧
    t'.only? negation .operand = some condition
  same : ∀ term a, a ∈ front ++ moved ++ tail ∨ t.only? id .condition = some a →
    t.Reads t.Has term a → t'.Reads t.Has term a

theorem Moved.inverted {t t' : Tree} {middle : Session} {branch condition negation : NodeId}
    (h : Moved t middle.tree block id branch (front ++ id :: tail) moved) (htidy : t.Tidy)
    (hid : t.Standing id)
    (hapart : id ∉ front ++ tail) (hbranch : t.only? id .thenBranch = some branch)
    (hcondition : t.only? id .condition = some condition)
    (hreplace : middle.tree.replace condition (.unary "not" (.kept condition) (some Ty.bool) none) =
      .ok (negation, t')) :
    Turned middle.tree t' condition negation ∧ Inverted t t' block id front moved tail := by
  have hidM := h.standing.child h.guard
  have honly : ∀ role, middle.tree.only? id role = t.only? id role := fun role => by
    simp only [only?, Node.kid, h.kids_eq]
  have hconditionM := (honly _).trans hcondition
  have hbranchM := (honly _).trans hbranch
  have hc := mem_children_of_only? hconditionM
  have hb := mem_children_of_only? hbranchM
  have hne : condition ≠ branch := only?_ne hidM.intact (by decide) hconditionM hbranchM
  have hhas : t.Has condition := (hid.child (mem_children_of_only? hcondition)).has
  obtain ⟨term, hterm⟩ :=
    Reads.exists_of_intact t.Has (hid.child (mem_children_of_only? hcondition)).intact
  have hcS := hidM.child hc
  obtain ⟨hturned, hread, _⟩ := keeping_turned ⟨h.spared.tidy htidy, fun _ => h.spared.keeps.has⟩
    hcS (by simp [Draft.unary, Draft.Plain, Draft.PlainKids, Draft.PlainOccupants])
    (by simp [Draft.unary, Shape.kind, NodeKind.layout]) (by simp [Draft.unary])
      (TakenFrom.self hcS.intact) hcS
    (h.reads t.Has term (fun _ h => h) condition (.inr (.inr hcondition)) hterm) hreplace
  have hkid : ∀ role,
    (t'.node id).kid role = ((t.node id).kid role).map (instead condition negation) :=
    fun role => by
    simp only [Node.kid, hturned.holder id (hidM.intact.parent_child hc), kidsAt_mapKids, h.kids_eq]
  obtain ⟨operand, hoperand, hread'⟩ := hread.only_of_kid (show kidsAt .operand _ = _ from rfl)
  obtain rfl : condition = operand :=
    ((hread'.originates condition).mp ((hterm.originates condition).mpr ⟨hhas, rfl⟩)).2
  -- A node is the same if it is neither beneath the condition nor the guard itself.
  have hframe : ∀ a, middle.tree.Has a → ¬middle.tree.Beneath condition a → a ≠ id →
    t'.node a = middle.tree.node a :=
    fun a ha hoff hne => hturned.frame a ha hoff fun heq =>
      hne (Option.some.inj (heq.symm.trans (hidM.intact.parent_child hc)))
  refine ⟨hturned, ?_, ?_, ⟨branch, hbranch, ?_, ?_, ?_⟩,
    ⟨condition, negation, hcondition, ?_, ?_, hoperand⟩, ?_⟩
  · rw [listed,
      (hturned.inside hidM hc).frame block h.standing.has
      (h.standing.intact.not_beneath_of_child h.guard)]
    exact h.statements
  · rw [lacks, hkid, lacks]
    cases (t.node id).kid .elseBranch <;> rfl
  · rw [only?, hkid, Occupants.one?_map, ← only?, hbranch, Option.map_some, instead_ne hne.symm]
  · have hkeeps := h.spared.keeps.trans hturned.spared.keeps
    exact hkeeps.kind_eq branch (hid.child (mem_children_of_only? hbranch)).has
  · rw [listed,
      hframe branch (hidM.child hb).has (fun hbelow =>
        hidM.intact.siblings_apart hc hb hne hbelow Beneath.refl) fun heq =>
      hidM.intact.not_own_child (heq ▸ hb)]
    exact h.body
  · rw [only?, hkid, Occupants.one?_map, ← only?, hcondition, Option.map_some, instead_self]
  · exact congrArg Face.shape hread.face_eq
  · rintro other a ha hother
    have houtside : a ∈ (front ++ id :: tail) ∧ a ≠ id ∨ a ∈ moved →
        (∀ b, middle.tree.Beneath a b → ¬middle.tree.Beneath condition b ∧ b ≠ id) →
          t'.Reads t.Has other a := by
      intro ha hoff
      have hotherM := h.reads t.Has other (fun _ h => h) a (ha.imp_right .inl) hother
      refine hotherM.transfer_node (fun _ => hturned.spared.keeps.has) fun b hb => ?_
      obtain ⟨_, _, hreadB⟩ := hotherM.occurs_of_beneath hb
      exact hframe b hreadB.has (hoff b hb).1 (hoff b hb).2
    have hstays : a ∈ front ++ tail → t'.Reads t.Has other a := by
      intro ha
      have hne : a ≠ id := fun heq => hapart (heq ▸ ha)
      have hmem : a ∈ front ++ id :: tail := by simp only [mem_append, mem_cons] at ha ⊢; tauto
      have hchild := (middle.tree.listed_sublist block .statements).subset (h.statements ▸ hmem)
      refine houtside (.inl ⟨hmem, hne⟩) fun b hb => ?_
      have hapart := fun hbelow => h.standing.intact.siblings_apart hchild h.guard hne hb hbelow
      exact ⟨fun hbelow => hapart ((Beneath.of_child hc).trans hbelow), fun heq =>
        hapart (heq ▸ Beneath.refl)⟩
    rcases ha with ha | ha
    · by_cases hmoved : a ∈ moved
      · have hchild := (middle.tree.listed_sublist branch .statements).subset (h.body.symm ▸ hmoved)
        refine houtside (.inr hmoved) fun b hb' => ?_
        have hbelow : middle.tree.Beneath branch b := hb'.below_child hchild
        refine ⟨hidM.intact.siblings_apart hb hc hne.symm hbelow, ?_⟩
        rintro rfl
        exact hidM.intact.not_beneath_of_child hb hbelow
      · exact hstays (by simp only [mem_append] at ha ⊢; tauto)
    · obtain rfl : condition = a := Option.some.inj (hcondition.symm.trans ha)
      rwa [hother.unique hterm]

def Turnable (t : Tree) (id : NodeId) : Prop :=
  ∃ condition branch jump inner, t.only? id .condition = some condition ∧
    t.only? id .thenBranch = some branch ∧ (t.node branch).kid .statements = .many (jump :: inner)

theorem turn_endsUnless (htidy : s.tree.Tidy) (hid : s.tree.Standing id)
    (hparent : s.tree.parent id = some block)
    (hlisted : s.tree.listed block .statements = front ++ id :: (moved ++ landing :: tail)) :
    EndsUnless (¬Turnable s.tree id) (turn block id (front ++ id :: tail) moved) s fun _ after =>
      Inverted s.tree after.tree block id front moved tail ∧
        Spared (s.tree.Within block) s.tree after.tree ∧ after.tree.Standing id ∧
        after.tree.parent id = some block := by
  have hblock := (hid.of_parent hparent).1
  have hnodup := (hlisted ▸ s.tree.listed_sublist block .statements).nodup hblock.intact.nodup
  have hkept : (front ++ id :: tail).Sublist (s.tree.listed block .statements) := by
    rw [hlisted]
    exact (List.Sublist.refl front).append (((sublist_cons_self landing tail).trans
      (sublist_append_right moved _)).cons_cons id)
  have hmoved : moved.Sublist (s.tree.listed block .statements) := by
    rw [hlisted]
    exact ((sublist_append_left moved _).trans (sublist_cons_self id _)).trans
      (sublist_append_right front _)
  have hguard : id ∈ front ++ id :: tail := by simp
  refine EndsUnless.bind (EndsUnless.edit (fun _ cut hrefill => ?_) fun hnone => ?_)
  swap
  · obtain ⟨list, hmany⟩ : ∃ list, (s.tree.node block).kid .statements = .many list := by
      rw [listed, Node.kidList] at hlisted
      cases hkid : (s.tree.node block).kid .statements with
      | many list => exact ⟨list, rfl⟩
      | empty => simp [hkid, Occupants.toList] at hlisted
      | one only =>
        have hlength := congrArg List.length hlisted
        simp only [hkid, Occupants.toList, length_append, length_cons, length_nil] at hlength
        omega
    have hmem : id ∈ list := listed_eq_of_many hmany ▸ hkept.subset hguard
    obtain ⟨_, _, hrefill⟩ := exists_refill ((front ++ id :: tail).map .kept) hmany hmem
    exact absurd hrefill (hnone _)
  have hcut := refill_refilled hblock (by
    simpa using Supplied.of_moved [] _ _ hblock.intact (by simp) nodup_nil
      (hkept.trans (s.tree.listed_sublist block .statements)) fun k hk => hkept.subset hk) hrefill
  have hkids : ∀ a, s.tree.Beneath id a → (cut.node a).kids = (s.tree.node a).kids := fun a =>
    hcut.edited.wholes id (mem_map_of_mem hguard) hid.intact a
  have honly : ∀ role, cut.only? id role = s.tree.only? id role := fun role => by
    simp only [only?, Node.kid, hkids id Beneath.refl]
  refine EndsUnless.bind (EndsUnless.child (fun branch hbranch => ?_) fun hnone hfine => ?_)
  swap
  · obtain ⟨_, branch, _, _, _, hbranch, _⟩ := hfine
    cases hnone.symm.trans ((honly _).trans hbranch)
  refine EndsUnless.bind (EndsUnless.edit (fun _ filled hfill => ?_) fun hnone hfine => ?_)
  swap
  · obtain ⟨_, other, jump, inner, _, hother, hmany⟩ := hfine
    obtain rfl : branch = other := Option.some.inj ((hbranch.symm.trans (honly _)).trans hother)
    rw [Node.kid, ← hkids branch (Beneath.of_child (mem_children_of_only? hother))] at hmany
    obtain ⟨_, _, hfill⟩ := exists_refill (moved.map .kept) hmany mem_cons_self
    exact hnone _ hfill
  have hmoves := refill_moves hblock hkept hguard hmoved (by grind) hbranch hcut hfill
  have hidM := hmoves.standing.child hmoves.guard
  have honlyM : ∀ role, filled.only? id role = s.tree.only? id role := fun role => by
    simp only [only?, Node.kid, hmoves.kids_eq]
  refine EndsUnless.bind (EndsUnless.child (fun condition hcondition => ?_) fun hnone hfine => ?_)
  swap
  · obtain ⟨condition, _, _, _, hcondition, _⟩ := hfine
    cases hnone.symm.trans ((honlyM _).trans hcondition)
  have hc := mem_children_of_only? hcondition
  have hup := hmoves.standing.intact.parent_child hmoves.guard
  refine EndsUnless.bind (EndsUnless.edit (fun negation after hreplace => EndsUnless.pure ?_)
    fun hnone _ => ?_)
  swap
  · obtain ⟨result, hreplace⟩ := exists_replace (.unary "not" (.kept condition) (some Ty.bool) none)
      (hidM.intact.parent_child hc) hc
    exact hnone result hreplace
  obtain ⟨hturned, hinverted⟩ :=
    Moved.inverted hmoves htidy hid (by grind) ((honly _).symm.trans hbranch)
    ((honlyM _).symm.trans hcondition) hreplace
  have hinside := hturned.inside hidM hc
  refine ⟨hinverted, ?_, hidM.of_within hinside.spared, hinside.parent_eq.trans hup⟩
  refine hmoves.spared.trans_within (hinside.spared.mono fun a _ hdisturbed => ?_) hblock
  exact hmoves.standing.intact.within_of_child hmoves.guard hdisturbed.1

theorem invert_yields (htidy : s.tree.Tidy) (hid : s.tree.Standing id) :
    Yields (invert id label) s fun _ after => Spared (Around s.tree id) s.tree after.tree ∧
      after.tree.Standing id ∧ after.tree.parent id = s.tree.parent id := by
  intro _ after hrun
  have hsame : invert id label s = .ok () s → Spared (Around s.tree id) s.tree after.tree ∧
      after.tree.Standing id ∧ after.tree.parent id = s.tree.parent id := by
    intro hidle
    cases hrun.symm.trans hidle
    exact ⟨Spared.refl _ _, hid, rfl⟩
  by_cases hblock : ∃ block, s.tree.parent id = some block ∧ s.tree.kind block = .block
  · obtain ⟨block, hparent, hkind⟩ := hblock
    obtain ⟨hblock, hmem⟩ := hid.of_parent hparent
    rw [children_of_sole_role (htidy block hblock.has) (by rw [hkind]; rfl)] at hmem
    rcases ahead_or_not s.tree label hmem with ⟨landing, front, moved, tail, h⟩ | ⟨front, rest,
      hlisted, hnone⟩
    · rw [invert_of_ahead hid hparent hkind h] at hrun
      obtain ⟨_, hspared, hstanding, hup⟩ :=
        (turn_endsUnless htidy hid hparent h.listed).yields _ _ hrun
      refine ⟨?_, hstanding, hup.trans hparent.symm⟩
      unfold Around
      rwa [hparent]
    · exact hsame (invert_of_not_ahead hid hparent hkind hlisted hnone)
  · apply hsame
    have hnone : ((s.tree.parent id).filter fun parent => s.tree.kind parent == .block) = none := by
      simpa [Option.filter_eq_none_iff] using hblock
    rw [invert, run_tree, hnone]
    rfl

theorem unmark_yields : Yields (unmark id) s fun _ after => (∀ D, Spared D s.tree after.tree) ∧
    after.tree.parent id = s.tree.parent id := by
  have hunchanged : Yields (pure ()) s fun _ after => (∀ D, Spared D s.tree after.tree) ∧
      after.tree.parent id = s.tree.parent id := Yields.pure ⟨fun D => Spared.refl D s.tree, rfl⟩
  refine Yields.read ?_
  split
  · refine Yields.bind (Yields.ofExcept fun text _ => ?_)
    split
    · refine reshape_yields (kind_mapName _ _) fun after hafter hspared => ⟨hspared, ?_⟩
      rw [hafter, parent_setShape]
    · exact hunchanged
  · exact hunchanged

theorem rule_visits (hvisit : Visits Around visit) : Visits Around (rule visit) := by
  intro s id htidy hid
  have hunchanged := descend_around hvisit htidy hid (Spared.refl _ s.tree) hid rfl
  refine Yields.read ?_
  simp only
  split
  · refine Yields.read ?_
    refine Yields.bind (Yields.ofExcept fun label _ => ?_)
    split
    · refine Yields.bind ((invert_yields htidy hid).mono fun _ middle hmiddle => ?_)
      exact descend_around hvisit htidy hid hmiddle.1 hmiddle.2.1 hmiddle.2.2
    · exact hunchanged
  · refine Yields.bind (unmark_yields.mono fun _ middle hmiddle => ?_)
    exact descend_around hvisit htidy hid (hmiddle.1 _) (hid.of_undisturbed hmiddle.1) hmiddle.2
  · refine Yields.bind (unmark_yields.mono fun _ middle hmiddle => ?_)
    exact descend_around hvisit htidy hid (hmiddle.1 _) (hid.of_undisturbed hmiddle.1) hmiddle.2
  · exact hunchanged

end FieldGuards

end UnitySharp
