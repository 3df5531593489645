import UnitySharp.Proofs.Pass.Rewriting
import UnitySharp.Proofs.Tree.Pruned
import UnitySharp.Proofs.Tree.Renewed

/-!
# Links while capture records go away

A block that creates a context is taken apart, which disturbs nothing but what is beneath the
block.  A value that leaves an assignment beside it comes back, as part of a declaration, in the
place of that very assignment.
-/

namespace UnitySharp

open UnitySharp.Tree Pass List

variable {s : Session} {id capture home statement : NodeId} {visit : NodeId → Pass Unit}
  {context : Symbol} {t t' t'' : Tree} {name : Name} {drop : NodeId → Bool}

def Draft.kept? : Draft → Option NodeId
  | .kept id => some id
  | _ => none

namespace Tree

variable {p v : NodeId} {parts : List Part} {gone ids : List NodeId} {copy : CapturedCopy}

theorem Edited.returned (hcut : ∀ D, Spared D t t') (h : Edited t' t'' p [v] parts gone ids)
    (hp : t.Standing p) (hwithin : t.Within p v) (hpart : .whole v ∈ parts) (D : NodeId → Prop) :
    Spared D t t'' := by
  have hv := hp.beneath hwithin.1
  have hv' := hv.of_undisturbed hcut
  have hp' := hp.of_undisturbed hcut
  have hback : ∀ {a b}, t.Standing a → t.Has b → t'.Beneath a b → t.Beneath a b := fun ha hb hab =>
    Spared.beneath_of_undisturbed hcut ha hb hab
  have hdrawn : ∀ {a}, t'.Drawn [v] a → t'.Beneath v a := by
    rintro a ⟨top, htop, hbelow⟩
    rwa [mem_singleton.mp htop] at hbelow
  have hstanding : ∀ {a}, t.Standing a → t''.Standing a := by
    intro a ha
    by_cases hfree : t'.Drawn [v] a
    · exact h.standing_part hp' hpart ⟨hdrawn hfree, (hv'.beneath (hdrawn hfree)).intact.hasSlot⟩
    · exact h.spared.standing a (ha.of_undisturbed hcut) hfree
  refine ⟨(hcut D).keeps.trans h.spared.keeps, ?_, fun a ha _ => hstanding ha, ?_, ?_, ?_,
    fun hbare => h.spared.bare ((hcut D).bare hbare)⟩
  · intro a ha hnew
    by_cases hmiddle : t'.Has a
    · exact h.spared.keeps.laid hmiddle ((hcut D).fresh a hmiddle hnew)
    · exact h.spared.fresh a ha hmiddle
  · intro a ha _ hnone
    refine h.spared.top a (ha.of_undisturbed hcut) (fun hbad => ?_)
      ((hcut fun _ => False).top a ha id hnone)
    -- Beneath the subtree every node had a parent to begin with.
    have hinside := hwithin.trans hp.intact (hback hv ha.has (hdrawn hbad))
    exact (Reach.of_within hp.intact hinside).2 hnone
  · intro a b ha _ hbelow hb
    have ha' := ha.of_undisturbed hcut
    have hb' := (hcut D).keeps.has hb
    left
    by_cases hfree : t'.Drawn [v] a
    · refine hback ha hb (hbelow.of_transfer fun c hc => ?_)
      exact congrArg allKids (h.wholes v hpart hv'.intact c ((hdrawn hfree).trans hc))
    · rcases h.through a b ha'.intact hfree hbelow hb' with hbelow | ⟨hbad, habove⟩
      · exact hback ha hb hbelow
      · exact (hback ha hp.has habove).trans (hwithin.1.trans (hback hv hb (hdrawn hbad)))
  · intro c up hc hup _ hparent
    have hc' := (hcut D).keeps.has hc
    have hup' := (hcut D).keeps.has hup
    have hfirst := (hcut fun _ => False).listed c up hc hup id
    by_cases hcDrawn : t'.Drawn [v] c
    · have hcS := hstanding (hv.beneath (hback hv hc (hdrawn hcDrawn)))
      exact Or.inl (hcS.of_parent hparent).2
    by_cases hupDrawn : t'.Drawn [v] up
    · have hsame : t'.parent c = t''.parent c := by
        by_cases hgone : c ∈ gone
        · rw [h.cut hgone hcDrawn] at hparent
          exact absurd hparent (by simp)
        by_cases heq : c = p
        · exact heq ▸ h.parent_eq.symm
        · rw [Tree.parent, Tree.parent, h.frame c hc' hcDrawn hgone heq]
      rcases hfirst (hsame.trans hparent) with hlisted | hstale
      · exact absurd ⟨v, by simp, (hdrawn hupDrawn).tail hlisted⟩ hcDrawn
      · exact Or.inr hstale
    · rcases h.spared.listed c up hc' hup' hupDrawn hparent with hlisted | ⟨hbefore, hunlisted⟩
      · exact Or.inl hlisted
      · rcases hfirst hbefore with hlisted | hstale
        · exact absurd hlisted hunlisted
        · exact Or.inr hstale

theorem kept?_sublist_plantAll (t : Tree) (p : NodeId) :
    (drafts : List Draft) → PartsReady t (partsOfAll drafts) → AllLaid t drafts →
      (∀ id ∈ drafts.filterMap Draft.kept?, t.HasSlot id) →
        (drafts.filterMap Draft.kept?).Sublist (plantAll t p drafts).1
  | [], _, _, _ => List.Sublist.refl _
  | draft :: rest, hready, hlaid, hslots => by
      have hfirst := plant_planted t (some p) draft hready.left hlaid.1
      have hrest :=
        kept?_sublist_plantAll (plant t (some p) draft).2 p rest (hready.after hfirst.toSown).1
        (AllLaid.transfer hfirst.keeps rest hlaid.2)
        fun id hid => hfirst.keeps.hasSlot (hslots id (mem_filterMap.mpr (by
          obtain ⟨other, hother, hkept⟩ := mem_filterMap.mp hid
          exact ⟨other, mem_cons_of_mem _ hother, hkept⟩)))
      change List.Sublist _
        ((plant t (some p) draft).1 :: (plantAll (plant t (some p) draft).2 p rest).1)
      cases hkept : draft.kept? with
      | none =>
        rw [filterMap_cons_none hkept]
        exact hrest.cons _
      | some id =>
        have hdraft : draft = .kept id := by
          cases draft <;> simp_all [Draft.kept?]
        subst hdraft
        have hslot := hslots id (by simp [Draft.kept?])
        rw [filterMap_cons_some hkept, plant_kept_fst hslot]
        exact hrest.cons_cons _

theorem ancestorWithin_above {holds : NodeKind → Bool} {fuel : Nat} {low : NodeId}
    (hlow : t.Standing low) (h : t.ancestorWithin holds fuel low = some p) : t.Beneath p low ∧
    holds (t.kind p) = true := by
  induction fuel generalizing low with
  | zero => simp [ancestorWithin] at h
  | succ fuel ih =>
    unfold ancestorWithin at h
    split at h
    · exact absurd h (by simp)
    · rename_i up hup
      obtain ⟨hupS, hchild⟩ := hlow.of_parent hup
      split at h
      · rename_i hholds
        cases h
        exact ⟨Beneath.of_child hchild, hholds⟩
      · obtain ⟨habove, hholds⟩ := ih hupS h
        exact ⟨habove.tail hchild, hholds⟩

/-! ## Copies into a context -/

theorem capturedName?_eq_some : t.capturedName? context id = some name ↔
    ∃ symbol type target, t.shape id = .memberAccess name symbol type ∧ name.toJson.isNull = false ∧
      t.only? id .target = some target ∧ t.isReferenceTo context target = true := by
  unfold capturedName?
  split
  · rename_i found symbol type hshape
    rw [hshape]
    constructor
    · intro h
      split at h
      · rename_i hcondition
        cases h
        rw [Bool.and_eq_true, Bool.not_eq_true'] at hcondition
        obtain ⟨target, honly, hreference⟩ := (Option.any_eq_true _ _).mp hcondition.2
        exact ⟨symbol, type, target, rfl, hcondition.1, honly, hreference⟩
      · cases h
    · rintro ⟨_, _, target, hsame, hnamed, honly, hreference⟩
      cases hsame
      simp [hnamed, honly, hreference]
  · rename_i hother
    constructor
    · intro h
      cases h
    · rintro ⟨symbol, type, _, hshape, _⟩
      exact absurd hshape (hother name symbol type)

theorem kind_of_isReferenceTo (h : t.isReferenceTo context id = true) : t.kind id = .reference := by
  unfold isReferenceTo at h
  split at h
  · rename_i hshape
    rw [kind, hshape]
    rfl
  · cases h

theorem assignmentOf?_spec {assignment : NodeId} (h : t.assignmentOf? statement = some assignment) :
    t.kind statement = .expressionStatement ∧ assignment ∈ t.children statement ∧
      t.kind assignment = .binary := by
  unfold assignmentOf? at h
  split at h
  · rename_i hkind
    obtain ⟨honly, hassign⟩ := Option.filter_eq_some_iff.mp h
    refine ⟨hkind, mem_children_of_only? honly, ?_⟩
    rw [kind]
    cases hshape : t.shape assignment <;> simp [hshape, Shape.isAssignment] at hassign
    rfl
  · exact absurd h (by simp)

theorem capturedCopy?_spec (h : t.capturedCopy? context statement = some copy) :
    t.kind statement = .expressionStatement ∧ copy.assignment ∈ t.children statement ∧
      t.kind copy.assignment = .binary ∧
        ∀ value, copy.value = some value → value ∈ t.children copy.assignment := by
  unfold capturedCopy? at h
  split at h
  · exact absurd h (by simp)
  · rename_i assignment hassignment
    obtain ⟨name, _, rfl⟩ := Option.map_eq_some_iff.mp h
    obtain ⟨hkind, hchild, hbinary⟩ := assignmentOf?_spec hassignment
    exact ⟨hkind, hchild, hbinary, fun value hvalue => mem_children_of_only? hvalue⟩

theorem Pruned.capturedName? (h : Pruned drop t t')
    (hname : t'.capturedName? context id = some name) :
    t.capturedName? context id = some name := by
  obtain ⟨symbol, type, target, hshape, hnamed, honly, hreference⟩ := capturedName?_eq_some.mp hname
  rw [h.shape_eq] at hshape
  rw [isReferenceTo, h.shape_eq] at hreference
  exact capturedName?_eq_some.mpr ⟨symbol, type, target, hshape, hnamed, h.only? _ _ _ honly,
    hreference⟩

theorem Pruned.capturedCopy? (h : Pruned drop t t')
    (hcopy : t'.capturedCopy? context statement = some copy) :
    (t.capturedCopy? context statement).isSome = true := by
  unfold Tree.capturedCopy? at hcopy
  split at hcopy
  · cases hcopy
  · rename_i assignment hassignment
    obtain ⟨name, hleft, _⟩ := Option.map_eq_some_iff.mp hcopy
    obtain ⟨left, honly, hname⟩ := Option.bind_eq_some_iff.mp hleft
    have hbefore : t.assignmentOf? statement = some assignment := by
      unfold assignmentOf? at hassignment ⊢
      rw [show t'.kind statement = t.kind statement from congrArg Shape.kind
        (h.shape_eq statement)] at hassignment
      split at hassignment
      · rename_i hkind
        obtain ⟨hexpression, hassign⟩ := Option.filter_eq_some_iff.mp hassignment
        rw [h.shape_eq] at hassign
        rw [if_pos hkind, h.only? _ _ _ hexpression]
        exact Option.filter_eq_some_iff.mpr ⟨rfl, hassign⟩
      · cases hassignment
    simp [Tree.capturedCopy?, hbefore, h.only? _ _ _ honly, h.capturedName? hname]

theorem capturedCopy?_congr (h : ∀ b, t.Beneath id b → t'.node b = t.node b) :
    t'.capturedCopy? context id = t.capturedCopy? context id := by
  have honly : ∀ b, t.Beneath id b → ∀ role, t'.only? b role = t.only? b role := fun b hb role => by
    rw [only?, h b hb, ← only?]
  have hshape : ∀ b, t.Beneath id b → t'.shape b = t.shape b :=
    fun b hb => congrArg Node.shape (h b hb)
  have hkid : ∀ {b c role}, t.Beneath id b → t.only? b role = some c → t.Beneath id c :=
    fun hb hc =>
    hb.tail (mem_children_of_only? hc)
  have hassignment : t'.assignmentOf? id = t.assignmentOf? id := by
    rw [assignmentOf?, assignmentOf?, kind, kind, hshape id Beneath.refl, honly id Beneath.refl]
    cases hexpression : t.only? id .expression with
    | none => rfl
    | some expression =>
        simp only [Option.filter, hshape expression (hkid Beneath.refl hexpression)]
  unfold capturedCopy?
  rw [hassignment]
  split
  · rfl
  · rename_i assignment hfound
    have hin : t.Beneath id assignment := Beneath.of_child (assignmentOf?_spec hfound).2.1
    rw [honly assignment hin, honly assignment hin]
    cases hleft : t.only? assignment .left with
    | none => rfl
    | some left =>
      have hbelow := hkid hin hleft
      simp only [Option.bind_some, capturedName?, hshape left hbelow, honly left hbelow]
      cases htarget : t.only? left .target with
      | none => rfl
      | some target =>
        have hreference : t'.isReferenceTo context target = t.isReferenceTo context target := by
          rw [isReferenceTo, hshape target (hkid hbelow htarget), ← isReferenceTo]
        simp only [Option.any_some, hreference]

theorem replace_declaration_new {symbol : Symbol} {type : Option Ty} {value : Option Draft}
    {position : Option Position} (htidy : t.Tidy)
    (h : t.replace statement (.declaration symbol type value position) = .ok (id, t')) :
    ¬t.Has id := by
  obtain ⟨p, _, _, _, _, hexchanged⟩ := replace_exchanged htidy h
  have hid : [NodeId.slot (t.detachAll [statement]).size] = [id] := hexchanged.ids_eq
  rw [← singleton_inj.mp hid, ← has_detachAll t [statement]]
  exact Nat.lt_irrefl _

end Tree

namespace Closure

variable {gathered : Gathered} {draft : Draft} {table : CaptureTable} {copy : Tree.CapturedCopy}
  {statements : List NodeId} {scope : NodeId}

def CaptureTable.New (table : CaptureTable) : Prop :=
  ∀ entry ∈ table, entry.2.IsNew

theorem isNew_ofSymbol (symbol : Symbol) (position : Option Position) :
    (Draft.ofSymbol symbol position).IsNew := by
  constructor
  · simp [Draft.ofSymbol]
  · intro u
    simp [Draft.ofSymbol, Shape.kind, NodeKind.layout]

theorem isNew_declaration (symbol : Symbol) (type : Option Ty) (position : Option Position) :
    (Draft.declaration symbol type none position).IsNew := by
  constructor
  · cases type <;> simp [Draft.declaration, Draft.typeRef, Occupants.ofOption]
  · intro u
    cases type <;> simp [Draft.declaration, Draft.typeRef, Occupants.ofOption, Shape.kind,
      NodeKind.layout]

theorem note_yields {post : Gathered → Session → Prop} (htable : gathered.table.New)
    (hdraft : draft.IsNew)
    (h : ∀ noted : Gathered, noted.table.New → noted.hoisted = gathered.hoisted → post noted s) :
    Yields (gathered.note name draft) s post := by
  refine Yields.bind (Yields.ofExcept fun table hset => Yields.pure (h _ ?_ rfl))
  obtain ⟨_, _, rfl⟩ := Except.map_eq_ok hset
  intro entry hentry
  rcases mem_cons.mp hentry with rfl | hentry
  · exact hdraft
  · exact htable entry (mem_filter.mp hentry).1

theorem CaptureTable.find?_spec (h : table.find? name = .ok (some draft)) :
    ∃ entry ∈ table, entry.1.toJson.sameKey name.toJson = true ∧ entry.2 = draft := by
  obtain ⟨_, _, hfound⟩ := Except.map_eq_ok h
  obtain ⟨entry, hentry, rfl⟩ := Option.map_eq_some_iff.mp hfound
  have hsame := List.find?_some hentry
  exact ⟨entry, mem_of_find?_eq_some hentry, hsame, rfl⟩

theorem isNew_of_find? (htable : table.New) (h : table.find? name = .ok (some draft)) :
    draft.IsNew := by
  obtain ⟨entry, hentry, _, rfl⟩ := CaptureTable.find?_spec h
  exact htable entry hentry

theorem valueOf_yields {post : NodeId → Session → Prop}
    (h : ∀ value, copy.value = some value → post value s) :
    Yields (valueOf copy) s post := by
  unfold valueOf
  split
  · rename_i value hvalue
    exact Yields.pure (h value hvalue)
  · exact Yields.throw

theorem localFor_yields {copy : Tree.CapturedCopy} {value : NodeId}
    {post : Symbol × Option Ty → Session → Prop}
    (h : ∀ pair after, Pruned (fun _ => false) s.tree after.tree →
      (∀ other, after.tree.node other = s.tree.node other) → post pair after) :
    Yields (localFor copy value) s post := by
  refine Yields.bind (Yields.ofExcept fun name _ => ?_)
  refine Yields.read ?_
  refine Yields.bind (Yields.typeAt fun _ => ?_)
  refine Yields.bind (Yields.ofExcept fun type _ => ?_)
  refine Yields.bind (coin_yields fun symbol after hnodes hloose hroot =>
    Yields.pure (h _ after ?_ ?_))
  · refine .of_same_nodes (fun D => Spared.of_same_store hnodes hloose hroot) ?_
      (node_congr hnodes hloose)
    intro other hother
    cases other with
    | slot n => simpa [Has, hnodes] using hother
    | loose n => simpa [Has, hloose] using hother
  · exact node_congr hnodes hloose

structure ValueCut (t t' : Tree) (assignment value : NodeId) : Prop where
  pruned : Pruned (fun c => c == value) t t'
  member : value ∈ t.children assignment
  parentless : t'.parent value = none
  node_eq : ∀ other, t.Has other → other ≠ assignment → other ≠ value → t'.node other = t.node other

theorem declareWithValue_yields {copy : Tree.CapturedCopy} {gathered : Gathered}
    {post : Draft × Gathered → Session → Prop} (htidy : s.tree.Tidy)
    (hstatement : s.tree.Standing statement)
    (hcopy : s.tree.capturedCopy? context statement = some copy) (htable : gathered.table.New)
    (h : ∀ value symbol type position noted after,
      ValueCut s.tree after.tree copy.assignment value → noted.table.New →
      noted.hoisted = gathered.hoisted →
      post (.declaration symbol type (some (.kept value)) position, noted) after) :
    Yields (declareWithValue copy statement gathered) s post := by
  obtain ⟨_, hassignment, _, hchild⟩ := capturedCopy?_spec hcopy
  refine Yields.bind (valueOf_yields fun value hvalue => ?_)
  have hmember := hchild value hvalue
  have hassignmentS := hstatement.child hassignment
  refine Yields.bind (localFor_yields fun pair coined hcoined hnode => ?_)
  refine Yields.bind (note_yields htable (isNew_ofSymbol pair.1 none) fun noted hnew hhoisted => ?_)
  have htidy' := (hcoined.undisturbed fun _ => False).tidy htidy
  have hvalueS := hcoined.standing (hassignmentS.child hmember)
  refine Yields.bind (Yields.remove fun cut hremove => Yields.read (Yields.pure ?_))
  obtain ⟨p, hparent, _, hcut⟩ := remove_edited htidy' hvalueS hremove
  have hp : p = copy.assignment := by
    rw [Tree.parent, hnode, ← Tree.parent, hassignmentS.intact.parent_child hmember] at hparent
    exact (Option.some.inj hparent).symm
  subst hp
  have hpruned := hcoined.trans (remove_pruned htidy' hvalueS hremove)
  simp only [Bool.false_or] at hpruned
  refine h value _ _ _ noted _ ⟨hpruned, hmember, hcut.cut (by simp) not_drawn_nil, ?_⟩ hnew
    hhoisted
  intro other hother hne hvalue
  rw [hcut.frame other ((hcoined.undisturbed fun _ => False).keeps.has hother) not_drawn_nil
    (by simpa using hvalue) hne, hnode]

/-! ## Gathering -/

/-- What has been gathered so far, and the tree after that: nothing is disturbed, and what is to be
hoisted are statements of the block and values cut out of such, each of its own. -/
structure Gathering (t : Tree) (capture : NodeId) (done : List NodeId) (gathered : Gathered)
    (t' : Tree) :
    Prop where
  within : ∀ statement ∈ done, statement ∈ t.children capture
  undisturbed : ∀ D, Spared D t t'
  node_eq : t'.node capture = t.node capture
  table : gathered.table.New
  laid : ∀ u, AllLaid u gathered.hoisted
  hoisted : ∃ tops : List NodeId, partsOfAll gathered.hoisted = tops.map .whole ∧ tops.Nodup ∧
    ∀ top ∈ tops, (∃ statement ∈ done, t.Beneath statement top) ∧
      (top ∈ t.children capture ∨ t'.parent top = none)

variable {done : List NodeId} {noted : Gathered}

theorem allLaid_hoist (u : Tree) (hall : AllLaid u gathered.hoisted) (hdraft : draft.Laid u) :
    AllLaid u (gathered.hoist draft).hoisted := by
  rw [allLaid_iff] at hall ⊢
  intro other hother
  rcases mem_append.mp hother with hother | hother
  · exact hall other hother
  · exact mem_singleton.mp hother ▸ hdraft

theorem parts_hoist (gathered : Gathered) (draft : Draft) :
    partsOfAll (gathered.hoist draft).hoisted = partsOfAll gathered.hoisted ++ draft.parts := by
  simp [Gathered.hoist, partsOfAll_eq_flatMap]

namespace Gathering

variable (h : Gathering t capture done gathered t')

include h

/-- The tree changes without disturbing anything, and nothing new is hoisted. -/
theorem carry (hspared : ∀ D, Spared D t' t'') (hnode : t''.node capture = t'.node capture)
    (hcapture : t.Standing capture) (htable : noted.table.New)
    (hhoisted : noted.hoisted = gathered.hoisted) :
    Gathering t capture done noted t'' where
  within := h.within
  undisturbed := fun D => (h.undisturbed D).trans (hspared D) fun _ _ hD => hD
  node_eq := hnode.trans h.node_eq
  table := htable
  laid := hhoisted ▸ h.laid
  hoisted := by
    obtain ⟨tops, hparts, hnodup, htops⟩ := h.hoisted
    refine ⟨tops, hhoisted ▸ hparts, hnodup, fun top htop => ⟨(htops top htop).1, ?_⟩⟩
    refine (htops top htop).2.imp_right fun hnone => ?_
    obtain ⟨statement, hstatement, hbelow⟩ := (htops top htop).1
    have htopS := ((hcapture.child (h.within statement hstatement)).beneath hbelow).of_undisturbed
      h.undisturbed
    exact (hspared fun _ => False).top top htopS id hnone

theorem within_append (hstatement : statement ∈ t.children capture) :
    ∀ other ∈ done ++ [statement], other ∈ t.children capture := by
  rw [forall_mem_append]
  exact ⟨h.within, by simpa using hstatement⟩

theorem hoist (hcapture : t.Standing capture) (hstatement : statement ∈ t.children capture)
    (hnew : statement ∉ done) {top : NodeId} (hparts : draft.parts = [.whole top])
    (hlaid : ∀ u, draft.Laid u) (hbelow : t.Beneath statement top)
    (htop : top ∈ t.children capture ∨ t'.parent top = none) :
    Gathering t capture (done ++ [statement]) (gathered.hoist draft) t' where
  within := h.within_append hstatement
  undisturbed := h.undisturbed
  node_eq := h.node_eq
  table := h.table
  laid := fun u => allLaid_hoist u (h.laid u) (hlaid u)
  hoisted := by
    obtain ⟨tops, hold, hnodup, htops⟩ := h.hoisted
    refine ⟨tops ++ [top], by rw [parts_hoist, hold, hparts]; simp, ?_, ?_⟩
    · -- What is beneath one statement of the block is not beneath another.
      refine nodup_append.mpr ⟨hnodup, by simp, ?_⟩
      rintro other hother _ hlast rfl
      rw [mem_singleton.mp hlast] at hother
      obtain ⟨earlier, hearlier, hshared⟩ := (htops top hother).1
      have hne : earlier ≠ statement := fun heq => hnew (heq ▸ hearlier)
      exact hcapture.intact.siblings_apart (h.within earlier hearlier) hstatement hne hshared hbelow
    · intro other hother
      rcases mem_append.mp hother with hother | hother
      · obtain ⟨⟨earlier, hearlier, hshared⟩, hplace⟩ := htops other hother
        exact ⟨⟨earlier, mem_append_left _ hearlier, hshared⟩, hplace⟩
      · rw [mem_singleton.mp hother]
        exact ⟨⟨statement, by simp, hbelow⟩, htop⟩

theorem pass (hstatement : statement ∈ t.children capture) :
    Gathering t capture (done ++ [statement]) gathered t' where
  within := h.within_append hstatement
  undisturbed := h.undisturbed
  node_eq := h.node_eq
  table := h.table
  laid := h.laid
  hoisted := by
    obtain ⟨tops, hparts, hnodup, htops⟩ := h.hoisted
    refine ⟨tops, hparts, hnodup, fun top htop => ⟨?_, (htops top htop).2⟩⟩
    obtain ⟨earlier, hearlier, hshared⟩ := (htops top htop).1
    exact ⟨earlier, mem_append_left _ hearlier, hshared⟩

theorem hoist_new (hdraft : draft.IsNew) :
    Gathering t capture done (gathered.hoist draft) t' where
  within := h.within
  undisturbed := h.undisturbed
  node_eq := h.node_eq
  table := h.table
  laid := fun u => allLaid_hoist u (h.laid u) (hdraft.2 u)
  hoisted := by
    obtain ⟨tops, hparts, hrest⟩ := h.hoisted
    exact ⟨tops, by rw [parts_hoist, hparts, hdraft.1, append_nil], hrest⟩

end Gathering

structure Housed (t : Tree) (capture home : NodeId) : Prop where
  standing : t.Standing capture
  block : t.kind capture = .block
  parent : t.parent capture = some home
  homeBlock : t.kind home = .block

def statementsKept (context : Symbol) (t : Tree) (statements : List NodeId) : List NodeId :=
  statements.filter fun statement => (t.capturedCopy? context statement).isNone

structure Keeping (context : Symbol) (t : Tree) (done : List NodeId) (gathered : Gathered)
    (t' : Tree) : Prop where
  pruned : ∃ drop, Pruned drop t t' ∧ ∀ c, drop c = true → ∃ statement ∈ done, t.Beneath statement c
  kept : (statementsKept context t done).Sublist (gathered.hoisted.filterMap Draft.kept?)

theorem Keeping.copied (h : Keeping context t done gathered t')
    (hcopy : (t.capturedCopy? context statement).isSome = true) 
    (hpruned : ∃ drop, Pruned drop t t'' ∧ ∀ c, drop c = true → ∃ other ∈ done ++ [statement],
      t.Beneath other c)
    (hhoisted : gathered.hoisted.Sublist noted.hoisted) :
      Keeping context t (done ++ [statement]) noted t'' where
  pruned := hpruned
  kept := by
    rw [statementsKept, filter_append,
      filter_cons_of_neg (by simp [Option.isSome_iff_ne_none.mp hcopy]), filter_nil, append_nil]
    exact h.kept.trans (hhoisted.filterMap _)

theorem gatherInside_yields (htidy : t.Tidy) (hcapture : t.Standing capture)
    (hstatement : statement ∈ t.children capture) (hnew : statement ∉ done)
    (h : Gathering t capture done gathered s.tree)
    (hkeeping : Keeping context t done gathered s.tree) :
    Yields (gatherInside context gathered statement) s fun noted after =>
      Gathering t capture (done ++ [statement]) noted after.tree ∧
        Keeping context t (done ++ [statement]) noted after.tree := by
  have hstatementS := (hcapture.child hstatement).of_undisturbed h.undisturbed
  have htidy' := (h.undisturbed fun _ => False).tidy htidy
  obtain ⟨drop, hpruned, hdrop⟩ := hkeeping.pruned
  have hdrop' : ∀ c, drop c = true → ∃ other ∈ done ++ [statement], t.Beneath other c := by
    intro c hc
    obtain ⟨other, hother, hbelow⟩ := hdrop c hc
    exact ⟨other, mem_append_left _ hother, hbelow⟩
  refine Yields.read ?_
  split
  · refine Yields.pure ⟨h.hoist hcapture hstatement hnew (by simp) (by simp) Beneath.refl
      (Or.inl hstatement), ⟨drop, hpruned, hdrop'⟩, ?_⟩
    rw [statementsKept, filter_append, Gathered.hoist, filterMap_append]
    exact hkeeping.kept.append (filter_sublist ..)
  · rename_i copy hcopy
    have hcopied := hpruned.capturedCopy? hcopy
    obtain ⟨_, hassignment, _, hchild⟩ := capturedCopy?_spec hcopy
    split
    · rename_i value hvalue
      have hvalueS :=
        (hstatementS.child hassignment).child (hchild value (Option.filter_eq_some_iff.mp hvalue).1)
      refine note_yields h.table (copy_isNew htidy' hvalueS.intact) fun noted htable hhoisted => ?_
      exact ⟨(h.carry (fun D => Spared.refl D _) rfl hcapture htable hhoisted).pass hstatement,
        hkeeping.copied hcopied ⟨drop, hpruned, hdrop'⟩ (by rw [hhoisted])⟩
    · refine Yields.bind (declareWithValue_yields htidy' hstatementS hcopy h.table ?_)
      intro value symbol type position noted after hcut htable hhoisted
      have hassignmentS := hstatementS.child hassignment
      have hcapture' := hcapture.of_undisturbed h.undisturbed
      have hmember : statement ∈ s.tree.children capture := by
        simpa only [Tree.children, h.node_eq] using hstatement
      have hinside : s.tree.Within capture copy.assignment :=
        hcapture'.intact.within_of_child hmember (Beneath.of_child hassignment)
      have hvalueIn := hinside.trans hcapture'.intact (Beneath.of_child hcut.member)
      have hnode := hcut.node_eq capture hcapture'.has hinside.2.symm hvalueIn.2.symm
      have hcarried := h.carry hcut.pruned.undisturbed hnode hcapture htable hhoisted
      have hbelow : s.tree.Beneath statement value :=
        (Beneath.of_child hcut.member).below_child hassignment
      have hvalueHas := hpruned.has value (hassignmentS.child hcut.member).has
      have hinBlock : t.Beneath statement value :=
        Spared.beneath_of_undisturbed h.undisturbed (hcapture.child hstatement) hvalueHas hbelow
      refine Yields.pure ⟨hcarried.hoist hcapture hstatement hnew (by rw [declaration_parts]; simp)
        (fun u => declaration_laid _ _ _ _ trivial) hinBlock (Or.inr hcut.parentless), ?_⟩
      refine hkeeping.copied hcopied ⟨_, hpruned.trans hcut.pruned, fun c hc => ?_⟩ ?_
      · rcases Bool.or_eq_true_iff.mp hc with hold | hvalue
        · exact hdrop' c hold
        · exact ⟨statement, by simp, eq_of_beq hvalue ▸ hinBlock⟩
      · rw [← hhoisted]
        exact sublist_append_left ..

theorem gatherInside_run (htidy : s.tree.Tidy) (hcapture : s.tree.Standing capture)
    (hsub : statements.Sublist (s.tree.children capture)) :
    Yields (statements.foldlM (gatherInside context) ⟨[], []⟩) s fun gathered after =>
      Gathering s.tree capture statements gathered after.tree ∧
        Keeping context s.tree statements gathered after.tree := by
  have hstart : Gathering s.tree capture [] ⟨[], []⟩ s.tree :=
    ⟨by simp, fun D => Spared.refl D _, rfl, by simp [CaptureTable.New], by simp, [], by simp⟩
  have hkeeping : Keeping context s.tree [] ⟨[], []⟩ s.tree :=
    ⟨⟨_, .of_same_nodes (fun D => Spared.refl D _) (fun _ => id) fun _ => rfl, by simp⟩,
      List.Sublist.refl _⟩
  refine Yields.foldlM_along (fun done gathered after =>
    Gathering s.tree capture done gathered after.tree ∧
    Keeping context s.tree done gathered after.tree) ⟨hstart, hkeeping⟩ ?_
  intro done statement rest hsplit gathered middle hmiddle
  have hnodup : (done ++ statement :: rest).Nodup := hsplit ▸ hcapture.intact.nodup.sublist hsub
  refine gatherInside_yields htidy hcapture (hsub.subset (by simp [hsplit])) (fun hmem => ?_)
    hmiddle.1 hmiddle.2
  exact (nodup_append.mp hnodup).2.2 statement hmem statement (by simp) rfl

/-- From one tree to the next, the statements of a block stay, except that copies into a context may
be dropped or have something new put in their place. -/
structure Shifts (context : Symbol) (home : NodeId) (t t' : Tree) (shift : NodeId → Option NodeId) :
    Prop where
  listed : t'.listed home .statements = (t.listed home .statements).filterMap shift
  stays : ∀ a ∈ t.listed home .statements, shift a = some a ∨
    (t.capturedCopy? context a).isSome = true
  image : ∀ a ∈ t.listed home .statements, ∀ b, shift a = some b → b = a ∨ ¬t.Has b
  copies : ∀ a ∈ t.listed home .statements, shift a = some a →
    (t'.capturedCopy? context a).isSome = true → (t.capturedCopy? context a).isSome = true

namespace Shifts

variable {shift next : NodeId → Option NodeId}

theorem of_pruned (h : Pruned drop t t') (hhome : t.Standing home)
    (hdrop : ∀ a ∈ t.listed home .statements, drop a = true →
      (t.capturedCopy? context a).isSome = true) :
    Shifts context home t t' (Option.guard fun c => !drop c) where
  listed := by rw [h.listed home hhome, filterMap_eq_filter]
  stays := by
    intro a ha
    by_cases hdropped : drop a = true
    · exact Or.inr (hdrop a ha hdropped)
    · exact Or.inl (by simp [Option.guard, hdropped])
  image := fun a _ b hb => Or.inl (Option.guard_eq_some_iff.mp hb).1.symm
  copies := by
    intro a _ _ hcopy
    obtain ⟨copy, hcopy⟩ := Option.isSome_iff_exists.mp hcopy
    exact h.capturedCopy? hcopy

theorem trans (h : Shifts context home t t' shift) (h' : Shifts context home t' t'' next)
    (hhome : t.Standing home) (hhas : ∀ a, t.Has a → t'.Has a) :
    Shifts context home t t'' (fun a => (shift a).bind next) := by
  have hmem : ∀ {a b}, a ∈ t.listed home .statements → shift a = some b →
    b ∈ t'.listed home .statements :=
    fun ha hb => h.listed ▸ mem_filterMap.mpr ⟨_, ha, hb⟩
  have hold : ∀ {a}, a ∈ t.listed home .statements → t.Has a := fun ha =>
    (hhome.child ((t.listed_sublist home .statements).subset ha)).has
  refine ⟨by rw [h'.listed, h.listed, filterMap_filterMap], fun a ha => ?_, fun a ha b hb => ?_,
    fun a ha hstays => ?_⟩
  · rcases h.stays a ha with hsame | hcopy
    · rcases h'.stays a (hmem ha hsame) with hsame' | hcopy
      · exact Or.inl (by rw [hsame, Option.bind_some, hsame'])
      · exact Or.inr (h.copies a ha hsame hcopy)
    · exact Or.inr hcopy
  · obtain ⟨c, hc, hcb⟩ := Option.bind_eq_some_iff.mp hb
    rcases h'.image c (hmem ha hc) b hcb with rfl | hnew
    · exact h.image a ha b hc
    · exact Or.inr fun hb => hnew (hhas b hb)
  · intro hcopy
    obtain ⟨c, hc, hca⟩ := Option.bind_eq_some_iff.mp hstays
    have hsame : a = c := (h'.image c (hmem ha hc) a hca).resolve_right fun hnew =>
      hnew (hhas a (hold ha))
    subst hsame
    exact h.copies a ha hc (h'.copies a (hmem ha hc) hca hcopy)

end Shifts

/-- From one statement of the scope to the next: nothing is disturbed, what is hoisted stays so, and
beside the block only copies are affected. -/
structure GoesAlong (context : Symbol) (home : NodeId) (gathered : Gathered) (t : Tree)
    (noted : Gathered) (t' : Tree) :
    Prop where
  undisturbed : ∀ D, Spared D t t'
  hoisted : gathered.hoisted.Sublist noted.hoisted
  shifted : ∃ shift, Shifts context home t t' shift

namespace GoesAlong

theorem of_pruned (h : Pruned drop t t') (hhome : t.Standing home)
    (hhoisted : gathered.hoisted.Sublist noted.hoisted)
    (hdrop : ∀ a ∈ t.listed home .statements, drop a = true →
      (t.capturedCopy? context a).isSome = true) :
    GoesAlong context home gathered t noted t' :=
  ⟨h.undisturbed, hhoisted, _, .of_pruned h hhome hdrop⟩

theorem refl (hhome : t.Standing home) (gathered : Gathered) :
    GoesAlong context home gathered t gathered t :=
  .of_pruned (.of_same_nodes (fun D => Spared.refl D t) (fun _ => id) fun _ => rfl) hhome
    (List.Sublist.refl _) (by simp)

theorem trans {latest : Gathered} (h : GoesAlong context home gathered t noted t')
    (h' : GoesAlong context home noted t' latest t'') (hhome : t.Standing home) :
    GoesAlong context home gathered t latest t'' := by
  obtain ⟨shift, hshift⟩ := h.shifted
  obtain ⟨next, hnext⟩ := h'.shifted
  exact ⟨fun D => (h.undisturbed D).trans (h'.undisturbed D) fun _ _ hD => hD,
    h.hoisted.trans h'.hoisted, _, hshift.trans hnext hhome fun a ha =>
    (h.undisturbed fun _ => False).keeps.has ha⟩

end GoesAlong

/-- A copy that stands beside the block becomes the declaration of a new local, and the copied value
goes along. -/
theorem declareBeside_yields (htidy : t.Tidy) (hhoused : Housed t capture home)
    (hstatement : s.tree.Standing statement) (h : Gathering t capture done gathered s.tree)
    (hcopy : s.tree.capturedCopy? context statement = some copy)
    (hbeside : s.tree.parent statement = some home) :
    Yields (do
      let (declaration, gathered) ← declareWithValue copy statement gathered
      let _ ← Pass.replace statement declaration
      return gathered) s fun noted after =>
        Gathering t capture done noted after.tree ∧
          GoesAlong context home gathered s.tree noted after.tree := by
  have htidy' := (h.undisturbed fun _ => False).tidy htidy
  have hcapture := hhoused.standing
  have hcaptureS := hcapture.of_undisturbed h.undisturbed
  have hparent : s.tree.parent capture = some home := by
    rw [Tree.parent, h.node_eq, ← Tree.parent, hhoused.parent]
  obtain ⟨hhomeS, hchild⟩ := hcaptureS.of_parent hparent
  have hkind : s.tree.kind capture = .block :=
    ((h.undisturbed fun _ => False).keeps.kind_eq _ hcapture.has).trans hhoused.block
  obtain ⟨hexpression, hassignment, hbinary, _⟩ := capturedCopy?_spec hcopy
  have hne : capture ≠ statement := by
    rintro rfl
    simp [hkind] at hexpression
  have hmember := (hstatement.of_parent hbeside).2
  refine Yields.bind (declareWithValue_yields htidy' hstatement hcopy h.table ?_)
  intro value symbol type position noted cut hcut htable hhoisted
  have hundisturbed := hcut.pruned.undisturbed
  have hkeeps := (hundisturbed fun _ => False).keeps
  have htidyCut := (hundisturbed fun _ => False).tidy htidy'
  have hbelow : s.tree.Beneath statement value :=
    (Beneath.of_child hcut.member).below_child hassignment
  have hvalueS := hstatement.beneath hbelow
  have hinside := hstatement.intact.within_of_child hassignment (Beneath.of_child hcut.member)
  -- What stands beside the copy is not beneath the value, and what holds it is not either.
  have hapart : ∀ {a b}, a ∈ s.tree.children home → a ≠ statement → s.tree.Beneath a b →
    ¬s.tree.Beneath value b :=
    fun ha hother hab hbad => hhomeS.intact.siblings_apart ha hmember hother hab (hbelow.trans hbad)
  have hoffHome : ¬s.tree.Beneath value home := fun hbad =>
    hhomeS.intact.not_beneath_of_child hmember (hbelow.trans hbad)
  have hback : ∀ {a}, s.tree.Has a → cut.tree.Beneath value a → s.tree.Beneath value a :=
    fun ha hab =>
    Spared.beneath_of_undisturbed hundisturbed hvalueS ha hab
  refine Yields.bind (Yields.edit fun new replaced hreplace => ?_)
  obtain ⟨p, hp, hpS, hedit⟩ :=
    replace_edited htidyCut (hstatement.of_undisturbed hundisturbed) hreplace
  have hunmoved : cut.tree.node statement = s.tree.node statement :=
    hcut.node_eq statement hstatement.has
      (hstatement.intact.within_of_child hassignment Beneath.refl).2.symm hinside.2.symm
  have hhomeEq : p = home := by
    rw [Tree.parent, hunmoved, ← Tree.parent, hbeside] at hp
    exact (Option.some.inj hp).symm
  subst hhomeEq
  have hlaid : (Draft.declaration symbol type (some (.kept value)) position).Laid cut.tree :=
    declaration_laid _ _ _ _ trivial
  have hparts : (Draft.declaration symbol type (some (.kept value)) position).parts =
    [.whole value] := by
    rw [declaration_parts]
    simp
  have hsupplied : cut.tree.Supplied p [statement] [value] [.whole value] := by
    have hvalue : ∀ k ∈ [value], cut.tree.Intact k ∧ ¬cut.tree.Beneath k p ∧
        (k ∈ [statement] ∨ cut.tree.parent k = none) := by
      simpa using ⟨(hvalueS.of_undisturbed hundisturbed).intact,
        fun hbad => hoffHome (hback hhomeS.has hbad), Or.inr hcut.parentless⟩
    simpa using Supplied.of_wholes hvalue (pairwise_singleton _ _)
  rw [← hparts] at hsupplied
  have hedited := hedit hlaid [value] hsupplied
  have hreturned := hedited.returned hundisturbed hhomeS
    (hhomeS.intact.within_of_child hmember hbelow) (by simp [hparts])
  -- Nodes beneath another child of the holder stay as they are.
  have hframe : ∀ {a b}, a ∈ s.tree.children p → a ≠ statement → s.tree.Has b → s.tree.Beneath a b →
      replaced.node b = cut.tree.node b := by
    intro a b ha hother hb hab
    refine hedited.frame b (hkeeps.has hb) ?_ ?_ ?_
    · rintro ⟨top, htop, hbad⟩
      exact hapart ha hother hab (hback hb (mem_singleton.mp htop ▸ hbad))
    · rintro hmem
      rw [mem_singleton.mp hmem] at hab
      exact hhomeS.intact.siblings_apart ha hmember hother hab Beneath.refl
    · rintro rfl
      exact hhomeS.intact.not_beneath_of_child ha hab
  have hnode : replaced.node capture = s.tree.node capture := by
    rw [hframe hchild hne hcaptureS.has Beneath.refl]
    refine hcut.node_eq capture hcaptureS.has ?_ fun heq =>
      hapart hchild hne Beneath.refl (heq ▸ Beneath.refl)
    rintro rfl
    simp [hkind] at hbinary
  refine Yields.pure ⟨h.carry hreturned hnode hcapture htable hhoisted, hreturned, by rw [hhoisted],
    fun c => some (instead statement new c), ?_⟩
  -- The declaration is none of the nodes there were, and it stands where the copy stood.
  have hholder := replace_holder htidyCut (hstatement.of_undisturbed hundisturbed) hp hlaid
    hsupplied hreplace
  have hfresh : ¬s.tree.Has new :=
    fun hbad => replace_declaration_new htidyCut hreplace (hkeeps.has hbad)
  have hlist : ∀ {a}, a ∈ s.tree.listed p .statements → a ∈ s.tree.children p := fun ha =>
    (s.tree.listed_sublist p .statements).subset ha
  have hcutList : cut.tree.listed p .statements = s.tree.listed p .statements := by
    rw [hcut.pruned.listed p hhomeS]
    refine filter_eq_self.mpr fun a ha => ?_
    have hother : a ≠ value := by
      rintro rfl
      exact hapart (hlist ha) hinside.2 Beneath.refl Beneath.refl
    simpa using hother
  constructor
  · rw [Tree.listed, hholder, filterMap_eq_map']
    simp only [Node.kidList, Node.kid, kidsAt_mapKids, Occupants.toList_map]
    rw [← hcutList]
    rfl
  · intro a _
    by_cases heq : a = statement
    · exact Or.inr (by simp [heq, hcopy])
    · exact Or.inl (congrArg some (instead_ne heq))
  · intro a _ b hb
    cases hb
    by_cases heq : a = statement
    · exact Or.inr (by rwa [heq, instead_self])
    · exact Or.inl (instead_ne heq)
  · intro a ha hstays hcopied
    have heq : a ≠ statement := by
      rintro rfl
      rw [instead_self] at hstays
      exact hfresh (Option.some.inj hstays ▸ hstatement.has)
    have haS := hhomeS.child (hlist ha)
    rw [capturedCopy?_congr fun b hb => ?_] at hcopied
    · obtain ⟨found, hfound⟩ := Option.isSome_iff_exists.mp hcopied
      exact hcut.pruned.capturedCopy? hfound
    · have hb' := hcut.pruned.has b ((haS.of_undisturbed hundisturbed).beneath hb).has
      exact hframe (hlist ha) heq hb' (Spared.beneath_of_undisturbed hundisturbed haS hb' hb)

theorem gatherOutside_yields (htidy : t.Tidy) (hhoused : Housed t capture home)
    (hstatement : s.tree.Standing statement) (h : Gathering t capture done gathered s.tree) :
    Yields (gatherOutside context capture (some home) gathered statement) s fun noted after =>
      Gathering t capture done noted after.tree ∧
        GoesAlong context home gathered s.tree noted after.tree := by
  have htidy' := (h.undisturbed fun _ => False).tidy htidy
  have hcapture := hhoused.standing
  have hcaptureS := hcapture.of_undisturbed h.undisturbed
  have hparent : s.tree.parent capture = some home := by
    rw [Tree.parent, h.node_eq, ← Tree.parent, hhoused.parent]
  have hhomeS := (hcaptureS.of_parent hparent).1
  have hsame : Gathering t capture done gathered s.tree ∧
    GoesAlong context home gathered s.tree gathered s.tree :=
    ⟨h, .refl hhomeS gathered⟩
  refine Yields.read ?_
  split
  · exact Yields.pure hsame
  rename_i hother
  split
  · exact Yields.pure hsame
  rename_i copy hcopy
  obtain ⟨hexpression, hassignment, _, hvalues⟩ := capturedCopy?_spec hcopy
  refine Yields.bind (Yields.ofExcept fun known _ => ?_)
  split
  · exact Yields.pure hsame
  split
  · rename_i value hvalue
    have hvalueS :=
      (hstatement.child hassignment).child (hvalues value (Option.filter_eq_some_iff.mp hvalue).1)
    refine Yields.bind (note_yields h.table (copy_isNew htidy' hvalueS.intact)
      fun noted htable hhoisted => ?_)
    refine Yields.bind (Yields.remove fun removed hremove => Yields.pure ?_)
    obtain ⟨p, hp, _, hedited⟩ := remove_edited htidy' hstatement hremove
    have hnode : removed.node capture = s.tree.node capture := by
      refine hedited.frame capture hcaptureS.has not_drawn_nil ?_ ?_
      · rw [mem_singleton]
        rintro rfl
        rw [(h.undisturbed fun _ => False).keeps.kind_eq _ hcapture.has,
          hhoused.block] at hexpression
        cases hexpression
      · rintro rfl
        exact hother (by simp [hp])
    refine ⟨h.carry hedited.undisturbed hnode hcapture htable hhoisted,
      .of_pruned (remove_pruned htidy' hstatement hremove) hhomeS (by rw [hhoisted]) fun a _ ha =>
        ?_⟩
    rw [eq_of_beq ha, hcopy]
    rfl
  split
  · rename_i hbeside
    exact declareBeside_yields htidy hhoused hstatement h hcopy (by simpa using hbeside)
  · refine Yields.bind (Yields.bind (valueOf_yields fun value _ => ?_))
    refine Yields.bind (localFor_yields fun pair coined hcoined hnode => ?_)
    refine Yields.bind (note_yields h.table (isNew_ofSymbol pair.1 none)
      fun noted htable hhoisted => ?_)
    refine Yields.pure (Yields.pure ⟨?_, .of_pruned hcoined hhomeS ?_ (by simp)⟩)
    · exact (h.carry hcoined.undisturbed (hnode capture) hcapture htable hhoisted).hoist_new
        (isNew_declaration _ _ _)
    · rw [← hhoisted]
      exact sublist_append_left ..

theorem gatherOutside_run (htidy : t.Tidy) (hhoused : Housed t capture home)
    (hscope : s.tree.Standing scope) (hhome : s.tree.Standing home)
    (h : Gathering t capture done gathered s.tree) :
    Yields ((s.tree.walk scope).foldlM (gatherOutside context capture (some home)) gathered) s
      fun noted after =>
      Gathering t capture done noted after.tree ∧
        GoesAlong context home gathered s.tree noted after.tree := by
  refine Yields.foldlM ⟨h, .refl hhome gathered⟩ ?_
  intro statement hstatement noted middle hmiddle
  have hstanding :=
    (hscope.beneath (beneath_of_mem_walk hstatement)).of_undisturbed hmiddle.2.undisturbed
  refine (gatherOutside_yields htidy hhoused hstanding hmiddle.1).mono ?_
  intro latest after hafter
  exact ⟨hafter.1, hmiddle.2.trans hafter.2 hhome⟩

def gather (context : Symbol) (capture scope : NodeId) (home : Option NodeId)
    (statements : List NodeId) :
    Pass Gathered := do
  let gathered ← statements.foldlM (gatherInside context) ⟨[], []⟩
  ((← Pass.tree).walk scope).foldlM (gatherOutside context capture home) gathered

theorem gather_yields (htidy : s.tree.Tidy) (hhoused : Housed s.tree capture home)
    (hscope : s.tree.Standing scope) (hsub : statements.Sublist (s.tree.children capture)) :
    Yields (gather context capture scope (some home) statements) s fun gathered after =>
      Gathering s.tree capture statements gathered after.tree ∧
        (statementsKept context s.tree statements).Sublist
          (gathered.hoisted.filterMap Draft.kept?) ∧
          GoesAlong context home ⟨[], []⟩ s.tree gathered after.tree := by
  obtain ⟨hhomeS, hchild⟩ := hhoused.standing.of_parent hhoused.parent
  refine Yields.bind ((gatherInside_run htidy hhoused.standing hsub).mono
    fun gathered first hfirst => ?_)
  obtain ⟨hfirst, ⟨drop, hpruned, hdrop⟩, hkept⟩ := hfirst
  refine Yields.read ?_
  refine (gatherOutside_run htidy hhoused (hpruned.standing hscope) (hpruned.standing hhomeS)
    hfirst).mono ?_
  intro noted second hsecond
  -- What is cut out of the block is beneath one of its statements, and nothing beside the block is.
  have halong : GoesAlong context home ⟨[], []⟩ s.tree gathered first.tree := by
    refine .of_pruned hpruned hhomeS (nil_sublist _) fun a ha hdropped => ?_
    obtain ⟨statement, hstatement, hbelow⟩ := hdrop a hdropped
    have hwithin := hhoused.standing.intact.within_of_child (hsub.subset hstatement) hbelow
    have hmember := (s.tree.listed_sublist home .statements).subset ha
    exact absurd hwithin.1 (hhomeS.intact.siblings_apart hmember hchild hwithin.2 Beneath.refl)
  exact ⟨hsecond.1, hkept.trans (hsecond.2.hoisted.filterMap _), halong.trans hsecond.2 hhomeS⟩

/-! ## Inlining -/

theorem inline_eq (context : Symbol) (capture : NodeId) : inline context capture = do
    let t ← Pass.tree
    let scope := (t.ancestor? NodeKind.isMethod capture).getD t.root
    let gathered ← gather context capture scope (t.parent capture)
      (t.listed capture .statements).tail
    let statements ← Pass.splice capture gathered.hoisted
    substitute context gathered.table scope
    removeDeclarations context scope
    let names ← Pass.ofExcept gathered.table.names
    Pass.say 3 ("Closure context " ++ context.name.plain ++ " carried " ++ names)
    return statements := by
  simp only [inline, gather, bind_assoc]

theorem substitute_yields (htidy : s.tree.Tidy) (hscope : s.tree.Standing scope)
    (htable : table.New) :
    Yields (substitute context table scope) s fun _ after => ∀ D, Spared D s.tree after.tree := by
  refine Yields.read ?_
  refine Yields.forM (fun after => ∀ D, Spared D s.tree after.tree) (fun D => Spared.refl D _) ?_
  intro id hid middle hmiddle
  have hidS := (hscope.beneath (beneath_of_mem_walk hid)).of_undisturbed hmiddle
  refine Yields.read ?_
  split
  · exact Yields.pure hmiddle
  · refine Yields.bind (Yields.ofExcept fun found hfound => ?_)
    split
    · rename_i draft
      have hnew := isNew_of_find? htable hfound
      split
      · refine Yields.bind (replace_fresh_yields ((hmiddle fun _ => False).tidy htidy) hidS
          (hnew.2 _) hnew.1 fun _ after hafter => Yields.pure fun D => ?_)
        exact (hmiddle D).trans (hafter D) fun _ _ hD => hD
      · exact Yields.pure hmiddle
    · exact Yields.pure hmiddle

theorem removeDeclarations_yields (htidy : s.tree.Tidy) (hscope : s.tree.Standing scope) :
    Yields (removeDeclarations context scope) s fun _ after =>
      Pruned (fun c => (s.tree.walk scope).contains c && s.tree.declares context c) s.tree
        after.tree := by
  refine Yields.read ?_
  refine Yields.forM_along (fun done after =>
    Pruned (fun c => done.contains c && s.tree.declares context c) s.tree after.tree) ?_ ?_
  · simpa using Pruned.of_same_nodes (fun D => Spared.refl D _) (fun _ => id) fun _ => rfl
  intro done id rest hsplit middle hmiddle
  have hidS :=
    hmiddle.standing
    (hscope.beneath (beneath_of_mem_walk (hsplit ▸ by simp : id ∈ s.tree.walk scope)))
  have hdeclares : middle.tree.declares context id = s.tree.declares context id := by
    rw [declares, declares, hmiddle.shape_eq]
  have hgrown : ∀ c, ((done ++ [id]).contains c && s.tree.declares context c) =
      ((done.contains c && s.tree.declares context c) ||
        (c == id && s.tree.declares context id)) := by
    intro c
    by_cases heq : c = id
    · subst heq
      simp
    · simp [heq]
  refine Yields.read ?_
  simp only [hgrown, hdeclares]
  split
  · rename_i hdeclared
    refine Yields.remove fun removed hremove => ?_
    have htidy' := (hmiddle.undisturbed fun _ => False).tidy htidy
    simpa [hdeclared] using hmiddle.trans (remove_pruned htidy' hidS hremove)
  · rename_i hother
    exact Yields.pure (by simpa [hother] using hmiddle)

/-- The statements that have taken the place of a block: they stand beside each other, and of the
nodes there were they hold only such as were beneath the block. -/
structure Unpacked (t t' : Tree) (capture : NodeId) (statements : List NodeId) : Prop where
  spared : Spared (t.Reach capture) t t'
  standing : ∀ statement ∈ statements, t'.Standing statement
  aside : statements.Pairwise t'.Aside
  region : ∀ statement ∈ statements, ∀ a, t.Has a → t'.Beneath statement a → t.Reach capture a

theorem Unpacked.carry (h : Unpacked t t' capture statements) (hspared : ∀ D, Spared D t' t'') :
    Unpacked t t'' capture statements where
  spared := h.spared.trans (hspared _) fun _ _ hD => hD
  standing := fun statement hstatement => (h.standing statement hstatement).of_undisturbed hspared
  aside := by
    refine h.aside.imp_of_mem fun ha hb hab => ⟨fun hbad => hab.1 ?_, fun hbad => hab.2 ?_⟩
    · exact Spared.beneath_of_undisturbed hspared (h.standing _ ha) (h.standing _ hb).has hbad
    · exact Spared.beneath_of_undisturbed hspared (h.standing _ hb) (h.standing _ ha).has hbad
  region := fun statement hstatement a ha hbelow => h.region statement hstatement a ha
    (Spared.beneath_of_undisturbed hspared (h.standing _ hstatement) (h.spared.keeps.has ha) hbelow)

theorem Gathering.splice_yields (h : Gathering t capture done gathered s.tree) (htidy : t.Tidy)
    (hhoused : Housed t capture home) :
    Yields (Pass.splice capture gathered.hoisted) s fun statements after =>
      Unpacked t after.tree capture statements ∧ ∃ before later,
        s.tree.listed home .statements = before ++ [capture] ++ later ∧
          after.tree.listed home .statements = before ++ statements ++ later ∧
            (gathered.hoisted.filterMap Draft.kept?).Sublist statements := by
  obtain ⟨hcapture, _, hhome, hblock⟩ := hhoused
  have hcaptureS := hcapture.of_undisturbed h.undisturbed
  have htidy' := (h.undisturbed fun _ => False).tidy htidy
  refine Yields.edit fun statements spliced hsplice => ?_
  obtain ⟨p, role, before, later, hp, hexchanged⟩ := splice_exchanged htidy' hsplice
  have hpHome : p = home := by
    rw [Tree.parent, h.node_eq, ← Tree.parent, hhome] at hp
    exact (Option.some.inj hp).symm
  subst hpHome
  have hpS := (hcaptureS.of_parent hp).1
  have hkind : s.tree.kind p = .block :=
    ((h.undisturbed fun _ => False).keeps.kind_eq _ (hcapture.of_parent hhome).1.has).trans hblock
  have hrole : role = .statements :=
    role_of_block (htidy' p hpS.has) hkind (c := capture) (by simp [hexchanged.list_eq])
  subst hrole
  obtain ⟨tops, hparts, hnodup, htops⟩ := h.hoisted
  have hchild := (hcaptureS.of_parent hp).2
  have hchildren : s.tree.children capture = t.children capture := by
    simp only [Tree.children, h.node_eq]
  have hinside : ∀ top ∈ tops, t.Within capture top := by
    intro top htop
    obtain ⟨statement, hstatement, hbelow⟩ := (htops top htop).1
    exact hcapture.intact.within_of_child (h.within statement hstatement) hbelow
  have hstanding : ∀ top ∈ tops, s.tree.Standing top := fun top htop =>
    (hcapture.beneath (hinside top htop).1).of_undisturbed h.undisturbed
  have hoff : ∀ top ∈ tops, ¬s.tree.Beneath top capture := by
    intro top htop hbad
    have htopS := hcapture.beneath (hinside top htop).1
    exact Within.not_above htopS.intact
      (Spared.beneath_of_undisturbed h.undisturbed htopS hcapture.has hbad) (hinside top htop)
  have haside : ∀ {a b}, a ∈ tops → b ∈ tops → a ≠ b → s.tree.Apart a b := by
    intro a b ha hb hne
    refine Aside.apart ?_ (hstanding a ha).intact (hstanding b hb).intact
    rcases (htops a ha).2 with hac | hna <;> rcases (htops b hb).2 with hbc | hnb
    · exact Apart.aside fun c => hcaptureS.intact.siblings_apart (hchildren ▸ hac) (hchildren ▸ hbc)
        hne
    · exact ((hstanding b hb).intact.aside_of_child hcaptureS.intact hnb (hoff b hb)
        (hchildren ▸ hac)).symm
    · exact (hstanding a ha).intact.aside_of_child hcaptureS.intact hna (hoff a ha)
        (hchildren ▸ hbc)
    · exact (hstanding a ha).intact.aside_of_parentless (hstanding b hb).intact hna hnb hne
  -- The block is one source, and each value that has been cut out is another.
  have hsupplied : s.tree.Supplied p [capture]
      (capture :: tops.filter fun top => s.tree.parent top == none)
      (partsOfAll gathered.hoisted) := by
    rw [hparts]
    refine ⟨?_, partsReady_wholes (fun top htop => (hstanding top htop).intact)
      (hnodup.imp_of_mem haside), ?_⟩
    · intro top htop
      rcases mem_cons.mp htop with rfl | htop
      · exact ⟨hcaptureS.intact, hpS.intact.not_beneath_of_child hchild, Or.inl (by simp)⟩
      · obtain ⟨htop, hnone⟩ := mem_filter.mp htop
        exact ⟨(hstanding top htop).intact, fun hbad => hoff top htop (hbad.tail hchild),
          Or.inr (by simpa using hnone)⟩
    · intro part hpart a hcovers
      obtain ⟨top, htop, rfl⟩ := mem_map.mp hpart
      rcases (htops top htop).2 with hmember | hnone
      · exact ⟨capture, by simp, hcovers.1.below_child (hchildren ▸ hmember)⟩
      · exact ⟨top, by simp [htop, hnone], hcovers.1⟩
  have hedited := hexchanged.edited hpS (h.laid _) hsupplied
  have hreach : ∀ a, t.Has a → s.tree.Drawn
      (capture :: tops.filter fun top => s.tree.parent top == none) a → t.Reach capture a := by
    rintro a ha ⟨top, htop, hbelow⟩
    rcases mem_cons.mp htop with rfl | htop
    · have hback := Spared.beneath_of_undisturbed h.undisturbed hcapture ha hbelow
      by_cases heq : a = top
      · exact ⟨hback, by simp [heq, hhome]⟩
      · exact Reach.of_within hcapture.intact ⟨hback, heq⟩
    · have htop := hinside top (mem_filter.mp htop).1
      have hback := Spared.beneath_of_undisturbed h.undisturbed (hcapture.beneath htop.1) ha hbelow
      exact Reach.of_within hcapture.intact (htop.trans hcapture.intact hback)
  refine ⟨⟨(h.undisturbed _).trans hedited.spared hreach, fun id hid => hedited.standing hpS hid,
    ?_, ?_⟩, before, later, hexchanged.list_eq, hexchanged.listed_eq hpS (h.laid _) hsupplied, ?_⟩
  · exact ((hedited.standing_parent hpS).intact.children_apart hedited.sublist).imp fun hab =>
      hab.aside
  · exact fun id hid a ha hbelow =>
      hreach a ha (hedited.region id hid a hbelow ((h.undisturbed fun _ => False).keeps.has ha))
  · rw [← hexchanged.ids_eq]
    refine kept?_sublist_plantAll _ p _ (hsupplied.ready.detached [capture]).1 (h.laid _)
      fun id hid => ?_
    obtain ⟨draft, hdraft, hkept⟩ := mem_filterMap.mp hid
    have hpart : .whole id ∈ partsOfAll gathered.hoisted := by
      rw [partsOfAll_eq_flatMap]
      refine mem_flatMap.mpr ⟨draft, hdraft, ?_⟩
      cases draft <;> simp_all [Draft.kept?]
    rw [hparts] at hpart
    exact (Keeps.detachAll s.tree [capture]).hasSlot
      (hstanding id (by simpa using hpart)).intact.hasSlot

theorem scope_standing (hsound : t.Sound) (hcapture : t.Standing capture)
    (hblock : t.kind capture = .block)
    (h : (t.ancestor? NodeKind.isMethod capture).getD t.root = scope) :
    t.Standing scope ∧ ¬t.Reach capture scope ∧
      (t.parent scope = none ∨ (t.kind scope).isMethod = true) := by
  subst h
  cases hscope : t.ancestor? NodeKind.isMethod capture with
  | none => exact ⟨hsound.standing, fun hreach => hreach.2 hsound.top, Or.inl hsound.top⟩
  | some scope =>
    have hscopeS := ancestor?_standing hcapture hscope
    obtain ⟨habove, hmethod⟩ := ancestorWithin_above hcapture hscope
    refine ⟨hscopeS, fun hreach => ?_, Or.inr hmethod⟩
    rw [Option.getD_some] at hreach
    rw [hscopeS.intact.beneath_antisymm habove hreach.1, hblock] at hmethod
    exact absurd hmethod (by simp [NodeKind.isMethod])

theorem inline_yields (hsound : s.tree.Sound) (hhoused : Housed s.tree capture home) :
    Yields (inline context capture) s fun statements after =>
      Unpacked s.tree after.tree capture statements := by
  obtain ⟨hscope, hfree, _⟩ := scope_standing hsound hhoused.standing hhoused.block rfl
  have hsub : (s.tree.listed capture .statements).tail.Sublist (s.tree.children capture) :=
    (tail_sublist _).trans (s.tree.listed_sublist capture .statements)
  rw [inline_eq]
  refine Yields.read ?_
  rw [hhoused.parent]
  refine Yields.bind ((gather_yields hsound.tidy hhoused hscope hsub).mono
    fun gathered second ⟨hsecond, _⟩ => ?_)
  refine Yields.bind ((hsecond.splice_yields hsound.tidy hhoused).mono
    fun statements third ⟨hthird, _⟩ => ?_)
  have hscope' := hthird.spared.standing _ hscope hfree
  have htidy := hthird.spared.tidy hsound.tidy
  refine Yields.bind ((substitute_yields htidy hscope' hsecond.table).mono fun _ fourth hfourth =>
    ?_)
  refine Yields.bind ((removeDeclarations_yields ((hfourth fun _ => False).tidy htidy)
    (hscope'.of_undisturbed hfourth)).mono fun _ fifth hfifth => ?_)
  refine Yields.bind (Yields.ofExcept fun names _ => ?_)
  refine Yields.bind (Yields.say fun after hafter => Yields.pure ?_)
  rw [hafter]
  exact (hthird.carry hfourth).carry hfifth.undisturbed

theorem inline_visits (hvisit : VisitsOn Sound Reach visit) (hsound : s.tree.Sound)
    (hcapture : s.tree.Standing capture) (hblock : s.tree.kind capture = .block)
    (hhome : (s.tree.parent capture).any (fun parent => s.tree.kind parent == .block) = true) :
    Yields (do (← inline context capture).forM visit) s fun _ after =>
      Spared (s.tree.Reach capture) s.tree after.tree := by
  obtain ⟨home, hparent, hkind⟩ := (Option.any_eq_true _ _).mp hhome
  refine Yields.bind ((inline_yields hsound ⟨hcapture, hblock, hparent, by simpa using hkind⟩).mono
    ?_)
  intro statements middle hmiddle
  have hsound' := hsound.of_spared hmiddle.spared fun hreach => hreach.2 hsound.top
  refine (forM_yields (fun statement => statement) hsound' hmiddle.standing hmiddle.aside
    fun statement _ session hground hstanding => hvisit session statement hground hstanding).mono ?_
  intro _ after hafter
  refine hmiddle.spared.trans hafter ?_
  rintro a ha ⟨statement, hstatement, hreach⟩
  exact hmiddle.region statement hstatement a ha hreach.1

theorem inlineRule_visits (hvisit : VisitsOn Sound Reach visit) :
    VisitsOn Sound Reach (inlineRule visit) := by
  intro s id hsound hid
  have hunchanged := descend_finish hvisit hsound hid (Spared.refl _ s.tree)
  refine Yields.read ?_
  simp only
  split
  · refine Yields.bind (Yields.ofExcept fun madeUp _ => ?_)
    split
    · refine Yields.bind (remove_yields hsound.tidy hid fun _ removed _ hedited => ?_)
      refine Yields.say fun after hafter => ?_
      rw [hafter]
      exact hedited.undisturbed _
    · exact hunchanged
  · rename_i hshape
    have hblock : s.tree.kind id = .block := by rw [kind, hshape]; rfl
    split
    · refine Yields.bind (Yields.ofExcept fun context _ => ?_)
      split
      · rename_i hhome
        cases context with
        | none => exact hunchanged
        | some context => exact inline_visits hvisit hsound hid hblock hhome
      · exact hunchanged
    · refine Yields.bind (Yields.pure ?_)
      split
      · exact hunchanged
      · exact hunchanged
  · exact hunchanged

end Closure

end UnitySharp
