import UnitySharp.Convert.Step
import UnitySharp.Proofs.Pass.Edits

/-!
# Rules that rewrite expressions

Most rules look at one node, wrap or replace it or one of its children, and descend.  Each of them
keeps the contract of a visit: it disturbs nothing beyond the reach of the node.
-/

namespace UnitySharp

open UnitySharp.Tree Pass

variable {s middle : Session} {id : NodeId} {visit : NodeId → Pass Unit} {α : Type} {type : Ty}

namespace Pass

variable {value : α} {action : NodeId → Pass Unit}

theorem pure_still {D : NodeId → Prop} :
    Yields (pure value) s fun _ after => Spared D s.tree after.tree :=
  Yields.pure (Spared.refl D s.tree)

theorem pure_untouched : Yields (pure value) s fun _ after => ∀ D, Spared D s.tree after.tree :=
  Yields.pure fun D => Spared.refl D s.tree

theorem descend_finish {ground : Tree → Prop} [Steady ground] (hvisit : VisitsOn ground Reach visit)
    (hground : ground s.tree) (hid : s.tree.Standing id)
    (hmiddle : Spared (s.tree.Within id) s.tree middle.tree) :
    Yields (descend visit id) middle fun _ after =>
      Spared (s.tree.Reach id) s.tree after.tree :=
  (descend_after hvisit local_reach hground hid hmiddle).mono fun _ _ hafter =>
    hafter.reach_of_within hid.intact

theorem descend_first {next : Unit → Pass Unit} (hvisit : Visits Reach visit) (htidy : s.tree.Tidy)
    (hid : s.tree.Standing id)
    (hnext : ∀ middle, middle.tree.Tidy → middle.tree.Standing id →
      Yields (next ()) middle fun _ after => Spared (middle.tree.Reach id) middle.tree after.tree) :
    Yields (descend visit id >>= next) s fun _ after =>
      Spared (s.tree.Reach id) s.tree after.tree := by
  refine Yields.bind ((descend_yields hvisit local_reach htidy hid).mono ?_)
  intro _ middle hmiddle
  refine (hnext middle (hmiddle.tidy htidy) (hid.of_within hmiddle)).mono ?_
  intro _ after hafter
  exact hmiddle.reach_after_within hafter hid

theorem Visits.reach (h : Visits Within action) : Visits Reach action := fun s id htidy hid =>
  (h s id htidy hid).mono fun _ _ hafter => hafter.reach_of_within hid.intact

theorem Visits.at_child {child : NodeId} (h : Visits Reach action) (htidy : s.tree.Tidy)
    (hid : s.tree.Standing id) (hchild : child ∈ s.tree.children id) :
    Yields (action child) s fun _ after => Spared (s.tree.Within id) s.tree after.tree :=
  (h s child htidy (hid.child hchild)).mono fun _ _ hafter =>
    hafter.within_of_child hid.intact hchild

end Pass

theorem map_fst_zip_sublist {β : Type} (first : List α) (second : List β) :
    ((first.zip second).map Prod.fst).Sublist first := by
  induction first generalizing second with
  | nil => simp
  | cons a rest ih =>
    cases second with
    | nil => simp
    | cons b others => simpa using ih others

theorem kind_mapName (f : Name → Name) (shape : Shape) : (shape.mapName f).kind = shape.kind := by
  cases shape <;> rfl

theorem ArrayMembers.rule_visits (hvisit : Visits Reach visit) :
    Visits Reach (ArrayMembers.rule visit) := by
  intro s id htidy hid
  refine Yields.read ?_
  have hunchanged := descend_finish hvisit htidy hid (Spared.refl _ s.tree)
  simp only
  split
  · refine Yields.bind (Yields.ofExcept fun _ _ => ?_)
    split
    · refine Yields.bind (reshape_yields (kind_mapName _ _) fun middle _ hmiddle => ?_)
      exact descend_finish hvisit htidy hid (hmiddle _)
    · exact hunchanged
  · exact hunchanged

namespace ComponentCalls

theorem makeGeneric_visits (component result : Ty) :
    Visits Within fun id => makeGeneric id component result := by
  intro s id htidy hid
  refine Yields.read ?_
  refine Yields.bind (Yields.child fun target htarget => ?_)
  have hchild := mem_children_of_only? htarget
  refine Yields.bind (clear_yields hid fun _ middle hmiddle _ => ?_)
  have hstanding : middle.tree.Standing target := (hid.child hchild).of_undisturbed hmiddle
  refine Yields.bind (replace_yields ((hmiddle fun _ => False).tidy htidy) hstanding ?_ ?_
    fun _ later hreplaced => ?_)
  · simp [Draft.typeRef, Shape.kind, NodeKind.layout]
  · simpa [Draft.typeRef] using TakenFrom.self hstanding.intact
  · have hlater :=
      (Spared.undisturbed_trans hmiddle (hid.child hchild) hreplaced.spared).within_of_child
      hid.intact hchild
    refine setType_yields fun after _ hafter => ?_
    exact hlater.trans (hafter _) fun _ _ hfalse => hfalse

theorem keepType_visits (model : NodeId) : Visits Reach fun id => keepType id model := by
  intro s id htidy hid
  refine Yields.bind (Yields.typeAt fun type => ?_)
  split
  · split
    · refine Yields.read ?_
      refine Yields.bind (replace_yields htidy hid ?_ ?_ fun _ after hreplaced => ?_)
      · simp [Draft.typeRef, Shape.kind, NodeKind.layout]
      · simpa [Draft.typeRef] using TakenFrom.self hid.intact
      · exact Yields.pure hreplaced.spared
    · exact pure_still
  · exact pure_still

theorem restore_visits : Visits Reach restore := by
  intro s id htidy hid
  refine Yields.read ?_
  split
  · exact pure_still
  · refine Yields.bind (Yields.ofExcept fun found _ => ?_)
    split
    · refine Yields.bind (Yields.ofExcept fun component _ => ?_)
      split
      · exact (makeGeneric_visits _ _).reach s id htidy hid
      · exact pure_still
    · split
      · exact keepType_visits _ s id htidy hid
      · exact pure_still
    · exact pure_still

theorem rule_visits (hvisit : Visits Reach visit) : Visits Reach (rule visit) := by
  intro s id htidy hid
  refine descend_first hvisit htidy hid fun middle htidy hid => ?_
  refine Yields.read ?_
  split
  · exact restore_visits middle id htidy hid
  · exact pure_still

end ComponentCalls

namespace Indexers

theorem parts_keptIn (t : Tree) (id : NodeId) (role : Role) :
    partsOfOccupants (t.keptIn id role) = (t.listed id role).map .whole := by
  unfold Tree.keptIn listed Node.kidList
  cases (t.node id).kid role <;> simp [Occupants.map, Occupants.toList]

theorem laid_keptIn (t : Tree) (id : NodeId) (role : Role) :
    OccupantsLaid t (t.keptIn id role) := by
  unfold Tree.keptIn
  cases (t.node id).kid role <;> simp [Occupants.map]

theorem taken {t : Tree} {target : NodeId} (hid : t.Intact id)
    (htarget : t.only? id .target = some target) :
    t.TakenFrom id ((t.listed target .target ++ t.listed id .arguments).map .whole) := by
  refine TakenFrom.of_grandchildren hid (mem_children_of_only? htarget)
    (t.listed_sublist target .target) (t.listed_sublist id .arguments) ?_
  have hmem : target ∈ (kidsAt .target (t.node id).kids).toList := by
    have hlist := listed_of_only? htarget
    simp only [listed, Node.kidList, Node.kid] at hlist
    simp [hlist]
  exact not_mem_other_role hid.nodup (by decide) hmem

end Indexers

namespace TruthTests

variable {zero : Draft}

theorem zeroFor_laid (h : Draft.zeroFor type = some zero) (t : Tree) :
    zero.Laid t ∧ zero.parts = [] := by
  unfold Draft.zeroFor at h
  split at h
  · cases h
    simp [Draft.literal, Shape.kind, NodeKind.layout]
  · split at h
    · cases h
      simp [Draft.literal, Shape.kind, NodeKind.layout]
    · split at h
      · split at h
        · cases h
          simp [Draft.enumMember, Draft.memberAccess, Draft.typeName, Shape.kind, NodeKind.layout]
        · cases h
          simp [Draft.cast, Draft.typeRef, Draft.literal, Shape.kind, NodeKind.layout]
      · split at h
        · cases h
          simp [Draft.literal, Shape.kind, NodeKind.layout]
        · exact absurd h (by simp)

theorem zeroOf?_laid {type : Option Ty} (h : zeroOf? type = some zero) (t : Tree) :
    zero.Laid t ∧ zero.parts = [] := by
  unfold zeroOf? at h
  split at h
  · exact absurd h (by simp)
  · split at h
    · exact absurd h (by simp)
    · exact zeroFor_laid h t

end TruthTests

namespace FunctionReferences

variable {argument : NodeId}

theorem retype_yields (htidy : s.tree.Tidy) (hid : s.tree.Standing id) :
    Yields (retype id) s fun _ after => ∀ D, Spared D s.tree after.tree := by
  refine Yields.read ?_
  split
  · exact pure_untouched
  · refine Yields.bind (Yields.child fun typeRef htypeRef => ?_)
    refine Yields.bind (Yields.typeAt fun type => ?_)
    split
    · refine Yields.bind (replace_fresh_yields htidy (hid.child (mem_children_of_only? htypeRef)) ?_
        ?_ fun _ after hafter => ?_)
      · simp [Shape.kind, NodeKind.layout]
      · simp
      · exact Yields.pure hafter
    · exact pure_untouched

theorem castToSignature_visits : Visits Reach castToSignature := by
  intro s id htidy hid
  refine Yields.read ?_
  split
  · exact wrapInCast_yields htidy hid
  · exact pure_still

theorem castInRole_visits (role : Role) : Visits Within fun id => castInRole id role := by
  intro s id htidy hid
  refine Yields.read ?_
  split
  · rename_i expression hexpression
    exact castToSignature_visits.at_child htidy hid (mem_children_of_only? hexpression)
  · exact pure_still

theorem retypeVariable_visits : Visits Within retypeVariable := by
  intro s id htidy hid
  refine Yields.bind ((retype_yields htidy hid).mono fun wasCallable middle hmiddle => ?_)
  split
  · refine (castInRole_visits .initializer middle id ((hmiddle fun _ => False).tidy htidy)
      (hid.of_undisturbed hmiddle)).mono fun _ after hafter => ?_
    exact (hmiddle _).trans_within hafter hid
  · exact Yields.pure (hmiddle _)

theorem takeAsValue_yields (htidy : s.tree.Tidy) (hid : s.tree.Standing id) :
    Yields (takeAsValue id) s fun _ after => ∀ D, Spared D s.tree after.tree := by
  refine Yields.read ?_
  split
  · refine Yields.bind (replace_fresh_yields htidy hid ?_ ?_ fun _ after hafter => ?_)
    · simp [Draft.typeOf, Draft.typeRef, Shape.kind, NodeKind.layout]
    · simp [Draft.typeOf, Draft.typeRef]
    · exact Yields.pure hafter
  · exact pure_untouched

theorem redirectEnumMethod_yields (htidy : s.tree.Tidy) (hid : s.tree.Standing id) :
    Yields (redirectEnumMethod id) s fun _ after => ∀ D, Spared D s.tree after.tree := by
  refine Yields.read ?_
  split
  · exact pure_untouched
  · rename_i target htarget
    have hchild := mem_children_of_only? (Option.filter_eq_some_iff.mp htarget).1
    split
    · refine Yields.bind (replace_fresh_yields htidy (hid.child hchild) ?_ ?_
        fun _ middle hmiddle => ?_)
      · simp [Draft.typeName, Shape.kind, NodeKind.layout]
      · simp [Draft.typeName]
      · split
        · exact Yields.pure hmiddle
        · rename_i parent hparent
          have hparent := (hid.of_parent (Option.filter_eq_some_iff.mp hparent).1).1
          split
          · refine Yields.forM (fun after => ∀ D, Spared D s.tree after.tree) hmiddle ?_
            intro argument hargument later hlater
            have hstanding :=
              hparent.child ((s.tree.listed_sublist parent .arguments).subset hargument)
            refine (takeAsValue_yields ((hlater fun _ => False).tidy htidy)
              (hstanding.of_undisturbed hlater)).mono fun _ after hafter D => ?_
            exact (hlater D).trans (hafter D) fun _ _ h => h
          · exact Yields.pure hmiddle
    · exact pure_untouched

theorem visit_kept_yields {new : Draft} {top : NodeId} (hvisit : Visits Reach visit)
    (htidy : s.tree.Tidy) (hargument : s.tree.Standing argument)
    (hreplaced : Replaced s.tree middle.tree id top new.parts)
    (hpart : .whole argument ∈ new.parts) :
    Yields (visit argument) middle fun _ after => Spared (s.tree.Reach id) s.tree after.tree := by
  have hself : (Part.whole argument).Covers s.tree argument :=
    ⟨Beneath.refl, hargument.intact.hasSlot⟩
  have hbelow := hreplaced.covered _ hpart argument hself
  refine (hvisit middle argument (hreplaced.spared.tidy htidy)
    (hreplaced.standing.beneath hbelow)).mono fun _ after hafter => ?_
  exact hreplaced.spared_beneath hbelow hafter

theorem readNumber_visits {callee : Symbol} (hvisit : Visits Reach visit) (htidy : s.tree.Tidy)
    (hid : s.tree.Standing id) (hargument : argument ∈ s.tree.children id) :
    Yields (readNumber visit id argument callee type) s fun _ after =>
      Spared (s.tree.Reach id) s.tree after.tree := by
  refine Yields.bind (Yields.typeAt fun argumentType => ?_)
  refine Yields.read ?_
  split
  · refine Yields.bind (Yields.child fun target htarget => ?_)
    refine Yields.bind (coin_undisturbed fun method middle hmiddle _ => ?_)
    have hstanding := (hid.child (mem_children_of_only? htarget)).of_undisturbed hmiddle
    refine Yields.bind (replace_fresh_yields ((hmiddle fun _ => False).tidy htidy) hstanding ?_ ?_
      fun _ later hlater => ?_)
    · simp [Draft.memberAccess, Draft.typeName, Shape.kind, NodeKind.layout]
    · simp [Draft.memberAccess, Draft.typeName]
    · exact descend_finish hvisit htidy hid ((hmiddle _).trans (hlater _) fun _ _ h => h)
  · split
    · refine Yields.bind (replace_yields htidy hid trivial ?_ fun _ middle hreplaced => ?_)
      · simpa using TakenFrom.child hid.intact hargument
      · exact visit_kept_yields hvisit htidy (hid.child hargument) hreplaced (by simp)
    · refine Yields.bind (Yields.say fun middle hmiddle => ?_)
      rw [← hmiddle] at htidy hid hargument ⊢
      refine Yields.bind (replace_yields htidy hid ?_ ?_ fun _ later hreplaced => ?_)
      · simp [Draft.cast, Draft.typeRef, Shape.kind, NodeKind.layout]
      · simpa [Draft.cast, Draft.typeRef] using TakenFrom.child hid.intact hargument
      · exact visit_kept_yields hvisit htidy (hid.child hargument) hreplaced
          (by simp [Draft.cast, Draft.typeRef])

theorem invokeDynamically_visits : Visits Reach invokeDynamically := by
  intro s id htidy hid
  refine Yields.bind (coin_undisturbed fun method middle hmiddle _ => ?_)
  refine Yields.read ?_
  have hstanding := hid.of_undisturbed hmiddle
  refine Yields.bind (replace_yields ((hmiddle fun _ => False).tidy htidy) hstanding ?_ ?_
    fun _ after hreplaced => ?_)
  · simp [Draft.memberAccess, Shape.kind, NodeKind.layout, Indexers.laid_keptIn]
  · simpa [Draft.memberAccess, Indexers.parts_keptIn] using
      TakenFrom.of_children hstanding.intact (middle.tree.listed_sublist id .target)
  · exact Yields.pure (Spared.undisturbed_trans hmiddle hid hreplaced.spared)

theorem castArguments_yields (parameters : List ParameterInfo) (htidy : s.tree.Tidy)
    (hid : s.tree.Standing id) :
    Yields (castArguments (s.tree.listed id .arguments) parameters) s fun _ after =>
      Spared (s.tree.Within id) s.tree after.tree := by
  refine forM_children_yields Prod.fst htidy hid ?_ ?_
  · exact (map_fst_zip_sublist _ _).trans (s.tree.listed_sublist id .arguments)
  · rintro ⟨argument, parameter⟩ _ s htidy hitem
    simp only
    split
    · exact castToSignature_visits s argument htidy hitem
    · exact pure_still

theorem visitCall_visits (hvisit : Visits Reach visit) : Visits Reach (visitCall visit) := by
  intro s id htidy hid
  have hfinish : ∀ _ middle, Spared (s.tree.Within id) s.tree middle.tree →
      Yields (descend visit id) middle fun _ after => Spared (s.tree.Reach id) s.tree after.tree :=
    fun (_ : Unit) middle hmiddle => descend_finish hvisit htidy hid hmiddle
  refine Yields.read ?_
  split
  · exact hfinish () s (Spared.refl _ _)
  · simp only
    refine Yields.bind (Yields.child fun target htarget => ?_)
    refine Yields.bind (Yields.ofExcept fun reader _ => ?_)
    split
    · rename_i argument hargument _ _
      have hchild : argument ∈ s.tree.children id := by
        apply (s.tree.listed_sublist id .arguments).subset
        simp [hargument]
      exact readNumber_visits hvisit htidy hid hchild
    · split
      · exact Yields.bind ((invokeDynamically_visits.at_child htidy hid
          (mem_children_of_only? htarget)).mono hfinish)
      · exact Yields.bind ((castArguments_yields _ htidy hid).mono hfinish)

theorem rule_visits (hvisit : Visits Reach visit) : Visits Reach (rule visit) := by
  intro s id htidy hid
  have hfinish : ∀ _ middle, Spared (s.tree.Within id) s.tree middle.tree →
      Yields (descend visit id) middle fun _ after => Spared (s.tree.Reach id) s.tree after.tree :=
    fun (_ : Unit) middle hmiddle => descend_finish hvisit htidy hid hmiddle
  refine Yields.read ?_
  split
  · exact Yields.bind ((retypeVariable_visits s id htidy hid).mono hfinish)
  · exact Yields.bind ((retypeVariable_visits s id htidy hid).mono hfinish)
  · exact Yields.bind ((retype_yields htidy hid).mono fun _ after hafter => Yields.pure (hafter _))
  · simp only
    split
    · refine Yields.bind (Yields.typeIn fun _ => ?_)
      split
      · exact Yields.bind ((castInRole_visits .right s id htidy hid).mono hfinish)
      · exact hfinish () s (Spared.refl _ _)
    · exact hfinish () s (Spared.refl _ _)
  · exact Yields.bind ((redirectEnumMethod_yields htidy hid).mono fun _ middle hmiddle =>
      hfinish () middle (hmiddle _))
  · exact visitCall_visits hvisit s id htidy hid
  · exact hfinish () s (Spared.refl _ _)

end FunctionReferences

namespace ReservedWords

theorem noteRenaming_store (t : Tree) (name : String) :
    (noteRenaming t name).nodes = t.nodes ∧ (noteRenaming t name).loose = t.loose ∧
      (noteRenaming t name).root = t.root := by
  unfold noteRenaming
  split <;> exact ⟨rfl, rfl, rfl⟩

theorem learnRenamings_yields :
    Yields learnRenamings s fun _ after => after.tree.nodes = s.tree.nodes ∧
      after.tree.loose = s.tree.loose ∧ after.tree.root = s.tree.root := by
  refine Yields.read ?_
  refine Yields.forM (fun after => after.tree.nodes = s.tree.nodes ∧
    after.tree.loose = s.tree.loose ∧ after.tree.root = s.tree.root) ⟨rfl, rfl, rfl⟩ ?_
  intro other _ middle hmiddle
  refine Yields.bind (Yields.ofExcept fun found _ => ?_)
  split
  · rename_i name _
    obtain ⟨hnodes, hloose, hroot⟩ := noteRenaming_store middle.tree name
    exact Yields.change ⟨hnodes.trans hmiddle.1, hloose.trans hmiddle.2.1, hroot.trans hmiddle.2.2⟩
  · exact Yields.pure hmiddle

end ReservedWords

namespace ValueType

theorem initializedType_yields {arguments : List NodeId} {post : Option Ty → Session → Prop}
    (h : ∀ type, post type s) :
    Yields (initializedType arguments) s post := by
  unfold initializedType
  split
  · exact Yields.pure (h none)
  · refine Yields.read ?_
    split
    · split
      · exact Yields.bind (Yields.typeAt fun _ => Yields.pure (h _))
      · exact Yields.typeAt h
    · exact Yields.typeAt h

theorem initializationRule_visits (hvisit : Visits Reach visit) :
    Visits Reach (initializationRule visit) := by
  intro s id htidy hid
  refine descend_first hvisit htidy hid fun middle htidy hid => ?_
  refine Yields.read ?_
  split
  · exact pure_still
  · rename_i first rest hlisted
    have hfirst : first ∈ middle.tree.children id := by
      apply (middle.tree.listed_sublist id .arguments).subset
      simp [hlisted]
    split
    · refine Yields.bind (initializedType_yields fun type => ?_)
      split
      · exact Yields.flag fun after hafter => hafter ▸ Spared.refl _ _
      · refine Yields.bind (coin_undisturbed fun symbol later hlater hnode => ?_)
        have hid' := hid.of_undisturbed hlater
        have hfirst' : first ∈ later.tree.children id := by
          simpa only [Tree.children, hnode] using hfirst
        refine Yields.bind (replace_yields ((hlater fun _ => False).tidy htidy) hid' ?_ ?_
          fun _ after hreplaced => ?_)
        · simp [Draft.invocation, Draft.ofSymbol, Shape.kind, NodeKind.layout, -List.map_tail]
        · have htail :
            (middle.tree.listed first .arguments).tail.Sublist (later.tree.children first) := by
            simp only [Tree.children, hnode]
            exact (List.tail_sublist _).trans (middle.tree.listed_sublist first .arguments)
          simpa [Draft.invocation, Draft.ofSymbol, -List.map_tail] using
            TakenFrom.of_grandchildren hid'.intact hfirst' htail (List.nil_sublist _)
              List.not_mem_nil
        · exact Yields.pure (Spared.undisturbed_trans hlater hid hreplaced.spared)
    · exact pure_still

end ValueType

end UnitySharp
