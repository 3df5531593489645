import UnitySharp.Proofs.Pass.Moving
import UnitySharp.Proofs.Switch.Renewing

/-!
# Rebuilding a switch

The statements of a lowered switch are taken apart and put together again.  On the way spare `break`
statements are cut out of lists that go on naming them, and a `break` that closes a branch has no
slot yet.
-/

namespace UnitySharp

open UnitySharp.Tree Pass List

variable {t u : Tree} {statements : List NodeId} {a : NodeId}

/-! ## Trimmed bodies -/

namespace Switch

def bodyKept (t : Tree) (statements : List NodeId) : List NodeId :=
  (withoutSpareBreaks t statements.length statements).1

def bodyDropped (t : Tree) (statements : List NodeId) : List NodeId :=
  (withoutSpareBreaks t statements.length statements).2

theorem withoutSpareBreaks_append (t : Tree) (fuel : Nat) (statements : List NodeId) :
    (withoutSpareBreaks t fuel statements).1 ++ (withoutSpareBreaks t fuel statements).2.reverse =
      statements := by
  induction fuel generalizing statements with
  | zero => simp [withoutSpareBreaks]
  | succ fuel ih =>
    unfold withoutSpareBreaks
    split
    · rename_i last before rest hreverse
      split
      · have hlast : statements = statements.dropLast ++ [last] := by
          refine (dropLast_append_getLast? last ?_).symm
          rw [← head?_reverse, hreverse]
          rfl
        simp only [reverse_cons, ← append_assoc, ih]
        exact hlast.symm
      · simp
    · simp

theorem bodyKept_append (t : Tree) (statements : List NodeId) :
    bodyKept t statements ++ (bodyDropped t statements).reverse = statements :=
  withoutSpareBreaks_append t _ statements

theorem bodyKept_sublist (t : Tree) (statements : List NodeId) :
    (bodyKept t statements).Sublist statements := by
  conv_rhs => rw [← bodyKept_append t statements]
  exact sublist_append_left _ _

theorem mem_of_mem_bodyDropped (h : a ∈ bodyDropped t statements) : a ∈ statements := by
  rw [← bodyKept_append t statements]
  exact mem_append_right _ (mem_reverse.mpr h)

theorem not_mem_bodyKept (hnodup : statements.Nodup) (h : a ∈ bodyDropped t statements) :
    a ∉ bodyKept t statements := by
  rw [← bodyKept_append t statements, nodup_append] at hnodup
  exact fun hkept => hnodup.2.2 a hkept a (mem_reverse.mpr h) rfl

theorem withoutSpareBreaks_congr (fuel : Nat) (h : ∀ a ∈ statements, u.kind a = t.kind a) :
    withoutSpareBreaks u fuel statements = withoutSpareBreaks t fuel statements := by
  induction fuel generalizing statements with
  | zero => rfl
  | succ fuel ih =>
    have hdrop : withoutSpareBreaks u fuel statements.dropLast =
        withoutSpareBreaks t fuel statements.dropLast := ih fun a ha => h a (dropLast_subset _ ha)
    unfold withoutSpareBreaks
    split
    · rename_i last before rest hreverse
      have hmem : ∀ a ∈ last :: before :: rest, a ∈ statements := fun a ha => by
        rw [← mem_reverse, hreverse]
        exact ha
      rw [h last (hmem last (by simp)), h before (hmem before (by simp)), hdrop]
    · rfl

end Switch

namespace Tree

variable (t : Tree) (gone : List NodeId) (a : NodeId) (role : Role)

theorem kind_detachAll : (t.detachAll gone).kind a = t.kind a :=
  congrArg Shape.kind (shape_detachAll t gone a)

theorem listed_detachAll : (t.detachAll gone).listed a role = t.listed a role := by
  rw [listed, Node.kidList, Node.kid, kids_detachAll]
  rfl

theorem only?_detachAll : (t.detachAll gone).only? a role = t.only? a role := by
  rw [only?, Node.kid, kids_detachAll]
  rfl

end Tree

namespace Switch

variable {s : Session} {drafts : List Draft} {label branch : NodeId} {type : Option Ty}
  {gone : List NodeId} {read : SwitchCase} {reads : List SwitchCase} {r : Tree}
  {K P : NodeId → Prop}

/-! ## Drafts that keep nodes -/

/-- Drafts keep certain nodes whole, in this order, and nothing else of a tree. -/
structure Keeping (ids : List NodeId) (drafts : List Draft) : Prop where
  laid (u : Tree) : AllLaid u drafts
  parts : partsOfAll drafts = ids.map .whole

namespace Keeping

variable {ids others : List NodeId} {id : NodeId} {more : List Draft} {place : Option Position}

theorem none : Keeping [] [] :=
  ⟨fun _ => trivial, rfl⟩

theorem append (h : Keeping ids drafts) (hmore : Keeping others more) :
    Keeping (ids ++ others) (drafts ++ more) where
  laid u := by
    rw [allLaid_iff]
    intro draft hdraft
    rcases mem_append.mp hdraft with hdraft | hdraft
    · exact (allLaid_iff u drafts).mp (h.laid u) draft hdraft
    · exact (allLaid_iff u more).mp (hmore.laid u) draft hdraft
  parts := by rw [partsOfAll_append, h.parts, hmore.parts, map_append]

theorem whole (ids : List NodeId) : Keeping ids (ids.map .kept) :=
  ⟨fun u => allLaid_map_kept u ids, partsOfAll_map_kept ids⟩

theorem cast (type : Ty) (id : NodeId) : Keeping [id] [.cast type (.kept id)] where
  laid u := by simp [Draft.cast, Draft.typeRef, Shape.kind, NodeKind.layout]
  parts := by simp [Draft.cast, Draft.typeRef]

theorem inSection (hlabels : Keeping ids drafts) (hbody : Keeping others more) :
    Keeping (ids ++ others)
      [.fresh .switchSection place [(.labels, .many drafts), (.body, .many more)]] where
  laid u := by simp [Shape.kind, NodeKind.layout, hlabels.laid u, hbody.laid u]
  parts := by simp [hlabels.parts, hbody.parts]

theorem inSwitch {subject : Draft} (hsubject : Keeping [id] [subject])
    (hsections : Keeping others more) :
    Keeping (id :: others)
      [.fresh .switchStatement place [(.subject, .one subject), (.sections, .many more)]] where
  laid u := by
    have hlaid := (allLaid_iff u [subject]).mp (hsubject.laid u) subject mem_cons_self
    simp [Shape.kind, NodeKind.layout, hlaid, hsections.laid u]
  parts := by
    have hparts : subject.parts = [.whole id] := by simpa using hsubject.parts
    simp [hparts, hsections.parts]

end Keeping

theorem trimBody_yields {post : List NodeId × Bool → Session → Prop}
    (h : ∀ isOpen after, after.tree = s.tree.detachAll (bodyDropped s.tree statements) →
      post (bodyKept s.tree statements, isOpen) after) :
    Yields (trimBody statements) s post :=
  Yields.read (Yields.bind (Yields.change (Yields.pure (h _ _ rfl))))

theorem closed_yields {statements : List NodeId} {post : List Draft → Session → Prop}
    (h : ∀ drafts after, Keeping (bodyKept s.tree statements) drafts →
      after.tree = s.tree.detachAll (bodyDropped s.tree statements) → post drafts after) :
    Yields (closed statements) s post := by
  refine Yields.bind (trimBody_yields fun isOpen after hafter => ?_)
  have hkept := Keeping.whole (bodyKept s.tree statements)
  refine Yields.pure (h _ after ?_ hafter)
  cases isOpen with
  | false => simpa using hkept
  | true =>
    have hbreak : Keeping [] [.fresh .breakStatement none []] :=
      ⟨by simp [Shape.kind, NodeKind.layout], by simp⟩
    simpa using hkept.append hbreak

/-! ## Labels -/

theorem integerLabel?_yields {post : Option Json → Session → Prop} (h : ∀ value, post value s) :
    Yields (integerLabel? label) s post := by
  refine Yields.read ?_
  split
  · split
    · exact Yields.pure (h _)
    · exact Yields.throw
  · split
    · split
      · split
        · split
          · exact Yields.pure (h _)
          · exact Yields.throw
        · exact Yields.pure (h _)
      · exact Yields.throw
    · exact Yields.pure (h _)
  · exact Yields.pure (h _)

theorem labelOver_yields :
    Yields (labelOver type label) s fun draft after =>
      after = s ∧ ∃ ids : List NodeId, ids.Sublist [label] ∧ Keeping ids [draft] := by
  unfold labelOver
  split
  · exact Yields.pure ⟨rfl, [label], List.Sublist.refl _, .whole [label]⟩
  · refine Yields.bind (integerLabel?_yields fun value => ?_)
    cases value with
    | none => exact Yields.pure ⟨rfl, [label], List.Sublist.refl _, .whole [label]⟩
    | some value =>
      simp only
      split
      · refine Yields.read (Yields.pure ⟨rfl, [], nil_sublist _, ?_, ?_⟩) <;>
          simp [Draft.enumMember, Draft.memberAccess, Draft.typeName, Shape.kind, NodeKind.layout]
      · exact Yields.pure ⟨rfl, [label], List.Sublist.refl _, .cast _ label⟩

theorem labels_kept {labels : List NodeId} {drafts : List Draft}
    (h : List.Forall₂ (fun label draft => ∃ ids : List NodeId, ids.Sublist [label] ∧
      Keeping ids [draft]) labels drafts) :
    ∃ ids : List NodeId, ids.Sublist labels ∧ Keeping ids drafts := by
  induction h with
  | nil => exact ⟨[], List.Sublist.refl _, .none⟩
  | cons hfirst _ ih =>
    obtain ⟨ids, hsub, hkept⟩ := hfirst
    obtain ⟨others, hsubs, hothers⟩ := ih
    exact ⟨ids ++ others, hsub.append hsubs, hkept.append hothers⟩

/-! ## Sections -/

/-- The nodes that the section of a case takes over: labels of it and what is kept of its branch. -/
def Taken (t : Tree) (read : SwitchCase) (ks : List NodeId) : Prop :=
  ∃ branch labels, t.only? read.statement .thenBranch = some branch ∧ labels.Sublist read.labels ∧
    ks = labels ++ bodyKept t (t.listed branch .statements)

def Spare (t : Tree) (reads : List SwitchCase) (a : NodeId) : Prop :=
  ∃ read ∈ reads, ∃ branch, t.only? read.statement .thenBranch = some branch ∧
    a ∈ bodyDropped t (t.listed branch .statements)

theorem bodyKept_congr (h : ∀ a ∈ statements, u.kind a = t.kind a) :
    bodyKept u statements = bodyKept t statements :=
  congrArg Prod.fst (withoutSpareBreaks_congr _ h)

theorem bodyDropped_congr (h : ∀ a ∈ statements, u.kind a = t.kind a) :
    bodyDropped u statements = bodyDropped t statements :=
  congrArg Prod.snd (withoutSpareBreaks_congr _ h)

theorem Taken.of_detachAll {ks : List NodeId} (h : Taken (t.detachAll gone) read ks) :
    Taken t read ks := by
  obtain ⟨branch, labels, hbranch, hlabels, rfl⟩ := h
  rw [only?_detachAll] at hbranch
  refine ⟨branch, labels, hbranch, hlabels, ?_⟩
  rw [listed_detachAll, bodyKept_congr fun a _ => kind_detachAll t gone a]

theorem Spare.of_detachAll (h : Spare (t.detachAll gone) reads a) : Spare t reads a := by
  obtain ⟨read, hread, branch, hbranch, ha⟩ := h
  rw [only?_detachAll] at hbranch
  rw [listed_detachAll, bodyDropped_congr fun a _ => kind_detachAll t gone a] at ha
  exact ⟨read, hread, branch, hbranch, ha⟩

theorem detachAll_detachAll (t : Tree) (first second : List NodeId) :
    (t.detachAll first).detachAll second = t.detachAll (first ++ second) :=
  (foldl_append).symm

theorem section?_yields :
    Yields (section? type read) s fun draft after =>
      (∃ gone, after.tree = s.tree.detachAll gone ∧ ∀ a ∈ gone, Spare s.tree [read] a) ∧
        ∃ ks, Taken s.tree read ks ∧ Keeping ks [draft] := by
  refine Yields.bind (Yields.child fun branch hbranch => ?_)
  refine Yields.bind (Yields.statementsOf fun _ => ?_)
  refine Yields.bind (closed_yields fun body middle hbody hmiddle => ?_)
  refine Yields.bind (Yields.mapM_reading _ (fun label _ => labelOver_yields) fun drafts hdrafts =>
    ?_)
  obtain ⟨labels, hsub, hlabels⟩ := labels_kept hdrafts
  refine Yields.read
    (Yields.pure ⟨⟨_, hmiddle, fun a ha => ?_⟩, _, ⟨branch, labels, hbranch, hsub, rfl⟩, ?_⟩)
  · exact ⟨read, by simp, branch, hbranch, ha⟩
  · exact hlabels.inSection hbody

theorem sections_yields :
    Yields (reads.mapM (section? type)) s fun drafts after =>
      (∃ gone, after.tree = s.tree.detachAll gone ∧ ∀ a ∈ gone, Spare s.tree reads a) ∧
        ∃ kss, List.Forall₂ (Taken s.tree) reads kss ∧ Keeping kss.flatten drafts := by
  induction reads generalizing s with
  | nil => exact Yields.pure ⟨⟨[], rfl, by simp⟩, [], .nil, .none⟩
  | cons read rest ih =>
    rw [mapM_cons]
    refine Yields.bind (section?_yields.mono ?_)
    rintro draft middle ⟨⟨gone, hgone, hspare⟩, ks, hks, hdraft⟩
    refine Yields.bind (ih.mono ?_)
    rintro drafts after ⟨⟨others, hothers, hspares⟩, kss, hkss, hdrafts⟩
    rw [hgone] at hothers hspares hkss
    refine Yields.pure ⟨⟨gone ++ others, ?_, ?_⟩, ks :: kss,
      .cons hks (hkss.imp fun _ _ => Taken.of_detachAll), hdraft.append hdrafts⟩
    · rw [hothers, detachAll_detachAll]
    · intro a ha
      rcases mem_append.mp ha with ha | ha
      · obtain ⟨found, hfound, hrest⟩ := hspare a ha
        exact ⟨found, by simp [mem_singleton.mp hfound], hrest⟩
      · obtain ⟨found, hfound, hrest⟩ := (hspares a ha).of_detachAll
        exact ⟨found, mem_cons_of_mem _ hfound, hrest⟩

/-! ## Branches -/

/-- The branch of a case that stays an `if` has lost its spare breaks, and perhaps got a loose
one. -/
structure Trimmed (r t : Tree) (branch : NodeId) (tail : List NodeId) : Prop where
  kind : r.kind branch = .block
  statements :
    (t.node branch).kid .statements = .many (bodyKept r (r.listed branch .statements) ++ tail)
  loose : tail = [] ∨ ∃ n, tail = [.loose n] ∧ ¬r.Has (.loose n) ∧ n < t.loose.size ∧
    (t.node (.loose n)).kids = [] ∧ t.kind (.loose n) = .breakStatement

theorem closeBranch_yields {branch : NodeId} (hbranch : s.tree.Has branch)
    (hrole : s.tree.kind branch = .block →
      (s.tree.node branch).kids.any (fun entry => entry.1 == Role.statements) = true) :
    Yields (closeBranch branch) s fun _ after =>
      Loosened (· = branch) (· ∈ bodyDropped s.tree (s.tree.listed branch .statements)) s.tree
        after.tree ∧ ∃ tail, Trimmed s.tree after.tree branch tail := by
  refine Yields.bind (Yields.statementsOf fun hkind => ?_)
  refine Yields.bind (trimBody_yields fun isOpen middle hmiddle => ?_)
  refine Yields.change ?_
  have hcut : Loosened (· = branch) (· ∈ bodyDropped s.tree (s.tree.listed branch .statements))
      s.tree middle.tree := by
    rw [hmiddle]
    exact (Loosened.detachAll _ _).mono (fun _ => False.elim) fun _ hmem => hmem
  have hkept : ∀ c ∈ bodyKept s.tree (s.tree.listed branch .statements),
    c ∈ s.tree.children branch :=
    fun c hc => (s.tree.listed_sublist branch .statements).subset ((bodyKept_sublist _ _).subset hc)
  have hrole' : (middle.tree.node branch).kids.any (fun entry => entry.1 == Role.statements) =
    true := by
    rw [hmiddle, kids_detachAll]
    exact hrole hkind
  have hhas' : middle.tree.Has branch := hcut.keeps.has hbranch
  cases isOpen with
  | false =>
    simp only [Bool.false_eq_true, if_false]
    refine ⟨hcut.setRole rfl fun c hc _ => hkept c hc, [], hkind, ?_, Or.inl rfl⟩
    simpa using kid_setRole_self hhas' hrole' _
  | true =>
    simp only [if_true]
    have hloose : Loosened (· = branch) (· ∈ bodyDropped s.tree (s.tree.listed branch .statements))
        s.tree (middle.tree.addLoose (Tree.bareNode .breakStatement none none)).2 :=
      hcut.trans (Loosened.addLoose rfl rfl rfl)
    have hnew : ¬s.tree.Has (.loose middle.tree.loose.size) := fun hhas =>
      absurd (hcut.keeps.has hhas) (Nat.lt_irrefl _)
    have hbranchL := hloose.keeps.has hbranch
    have hne : branch ≠ .loose middle.tree.loose.size := by
      rintro rfl
      exact hnew hbranch
    have hnode := node_addLoose_new middle.tree (Tree.bareNode .breakStatement none none)
    refine ⟨hloose.setRole rfl ?_, [.loose middle.tree.loose.size], hkind, ?_,
      Or.inr ⟨_, rfl, hnew, ?_, ?_, ?_⟩⟩
    · intro c hc hold
      rcases mem_append.mp hc with hc | hc
      · exact hkept c hc
      · rw [mem_singleton.mp hc] at hold
        exact absurd hold hnew
    · refine kid_setRole_self hbranchL ?_ _
      rw [node_addLoose_old hhas']
      exact hrole'
    · rw [Tree.setRole, size_loose_update]
      simp [addLoose]
    · simp only [node_setRole_ne _ hne.symm, hnode]
      rfl
    · simp only [Tree.kind, Tree.shape, node_setRole_ne _ hne.symm, hnode]
      rfl

theorem Trimmed.mono {tail : List NodeId} (h : Trimmed r t branch tail) (hu : Loosened K P t u)
    (hbranch : t.Has branch) (hK : ¬K branch) (hloose : ∀ n, ¬K (.loose n)) :
    Trimmed r u branch tail where
  kind := h.kind
  statements := by
    rw [Node.kid, hu.kids_eq hbranch hK]
    exact h.statements
  loose := by
    rcases h.loose with hnone | ⟨n, htail, hnew, hn, hkids, hkind⟩
    · exact Or.inl hnone
    · have hhas : t.Has (.loose n) := hn
      refine Or.inr ⟨n, htail, hnew, Nat.lt_of_lt_of_le hn hu.keeps.loose_le, ?_, ?_⟩
      · rw [hu.kids_eq hhas (hloose n), hkids]
      · rw [Tree.kind, hu.shape_eq hhas]
        exact hkind

def IsBranch (t : Tree) (reads : List SwitchCase) (a : NodeId) : Prop :=
  ∃ read ∈ reads, t.only? read.statement .thenBranch = some a

theorem any_statements (hlaid : t.Laid branch) (hkind : t.kind branch = .block) :
    (t.node branch).kids.any (fun entry => entry.1 == Role.statements) = true := by
  rw [Laid, hkind] at hlaid
  have hmem : Role.statements ∈ t.roles branch := by
    rw [hlaid]
    decide
  obtain ⟨entry, hentry, hrole⟩ := mem_map.mp hmem
  exact any_eq_true.mpr ⟨entry, hentry, by simp [hrole]⟩

/-- The branches of cases that stay `if` statements are closed one after the other.  The tree `r` is
the last one that was intact. -/
theorem closeBranches_yields {r : Tree} {K P : NodeId → Prop} {reads : List SwitchCase}
    (htidy : r.Tidy) (hr : Loosened K P r s.tree)
    (hstanding : ∀ read ∈ reads, r.Standing read.statement)
    (hapart : reads.Pairwise fun x y => r.Apart x.statement y.statement)
    (hfree : ∀ read ∈ reads, ¬K read.statement ∧ ∀ branch,
      r.only? read.statement .thenBranch = some branch → ¬K branch) :
    Yields (reads.forM fun read => do closeBranch (← Pass.child read.statement .thenBranch)) s
      fun _ after => Loosened (IsBranch r reads) (Spare r reads) s.tree after.tree ∧
        ∀ read ∈ reads, ∃ branch tail, r.only? read.statement .thenBranch = some branch ∧
          Trimmed r after.tree branch tail := by
  induction reads generalizing s K P with
  | nil => exact Yields.pure ⟨Loosened.refl _, by simp⟩
  | cons read rest ih =>
    have hread := hstanding read mem_cons_self
    refine Yields.bind (Yields.bind (Yields.child fun branch hbranch => ?_))
    rw [only?, Node.kid, hr.kids_eq hread.has (hfree read mem_cons_self).1] at hbranch
    change r.only? read.statement .thenBranch = some branch at hbranch
    have hbranchS := hread.child (mem_children_of_only? hbranch)
    have hbranchK := (hfree read mem_cons_self).2 branch hbranch
    have hkids : (s.tree.node branch).kids = (r.node branch).kids :=
      hr.kids_eq hbranchS.has hbranchK
    have hlisted : s.tree.listed branch .statements = r.listed branch .statements := by
      rw [listed, Node.kidList, Node.kid, hkids]
      rfl
    have hkind : ∀ a, r.Has a → s.tree.kind a = r.kind a := fun a ha =>
      congrArg Shape.kind (hr.shape_eq ha)
    have hkinds : ∀ a ∈ r.listed branch .statements, s.tree.kind a = r.kind a := fun a ha =>
      hkind a (hbranchS.child ((r.listed_sublist branch .statements).subset ha)).has
    refine (closeBranch_yields (hr.keeps.has hbranchS.has) ?_).mono ?_
    · intro hblock
      rw [hkids]
      exact any_statements (htidy branch hbranchS.has) (hkind branch hbranchS.has ▸ hblock)
    rintro _ middle ⟨hstep, tail, htrimmed⟩
    rw [hlisted, bodyDropped_congr hkinds] at hstep
    have htrimmed' : Trimmed r middle.tree branch tail := by
      refine ⟨hkind branch hbranchS.has ▸ htrimmed.kind, ?_, ?_⟩
      · have hstatements := htrimmed.statements
        rwa [hlisted, bodyKept_congr hkinds] at hstatements
      · refine htrimmed.loose.imp_right ?_
        rintro ⟨n, htail, hnew, hrest⟩
        exact ⟨n, htail, fun hhas => hnew (hr.keeps.has hhas), hrest⟩
    -- A branch lies beneath its own case only.
    have hother : ∀ other ∈ rest, ¬r.Beneath other.statement branch := fun other hmem =>
      (pairwise_cons.mp hapart).1 other hmem branch
        (Beneath.of_child (mem_children_of_only? hbranch))
    have hmiddle : Loosened (fun a => K a ∨ a = branch) (fun a => P a ∨
        a ∈ bodyDropped r (r.listed branch .statements)) r middle.tree :=
      (hr.mono (fun _ => Or.inl) fun _ => Or.inl).trans (hstep.mono (fun _ => Or.inr) fun _ =>
        Or.inr)
    refine (ih hmiddle (fun other hmem => hstanding other (mem_cons_of_mem _ hmem))
      (pairwise_cons.mp hapart).2 ?_).mono ?_
    · intro other hmem
      have hold := hfree other (mem_cons_of_mem _ hmem)
      refine ⟨?_, fun inner hinner => ?_⟩
      · rintro (hbad | rfl)
        · exact hold.1 hbad
        · exact hother other hmem Beneath.refl
      · rintro (hbad | rfl)
        · exact hold.2 inner hinner hbad
        · exact hother other hmem (Beneath.of_child (mem_children_of_only? hinner))
    · rintro _ after ⟨hafter, hreads⟩
      constructor
      · refine (hstep.mono ?_ ?_).trans (hafter.mono ?_ ?_)
        · rintro a rfl
          exact ⟨read, mem_cons_self, hbranch⟩
        · exact fun a ha => ⟨read, mem_cons_self, branch, hbranch, ha⟩
        · rintro a ⟨other, hmem, hother⟩
          exact ⟨other, mem_cons_of_mem _ hmem, hother⟩
        · rintro a ⟨other, hmem, hother⟩
          exact ⟨other, mem_cons_of_mem _ hmem, hother⟩
      · intro other hmem
        rcases mem_cons.mp hmem with rfl | hmem
        · refine ⟨branch, tail, hbranch, htrimmed'.mono hafter (hmiddle.keeps.has hbranchS.has) ?_
            ?_⟩
          · rintro ⟨other, hmem, hbad⟩
            exact hother other hmem (Beneath.of_child (mem_children_of_only? hbad))
          · rintro n ⟨other, hmem, hbad⟩
            exact ((hstanding other (mem_cons_of_mem _ hmem)).child
              (mem_children_of_only? hbad)).intact.hasSlot.elim
        · exact hreads other hmem

end Switch

end UnitySharp
