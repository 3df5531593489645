import UnitySharp.Proofs.Pass.Rewriting
import UnitySharp.Proofs.Pass.Settling

/-!
# Names and modifiers at rest

One pass puts a marker in front of names that are keywords, the other makes top-level types
internal.  Neither finds anything the second time.
-/

namespace UnitySharp

open UnitySharp.Tree Pass List

variable {known : NodeId → Prop} {s : Session} {id : NodeId} {origin : Option NodeId} {face : Face}
  {kids : Kids Term} {post : Unit → Session → Prop} {t : Tree} {visit : NodeId → Pass Unit}
  {shape : Shape}

namespace Pass

theorem reshape_reads {f : Shape → Shape} {post : Unit → Session → Prop}
    (hkind : (f face.shape).kind = face.shape.kind) (hid : s.tree.Standing id)
    (hreads : s.tree.Reads known (.node origin face kids) id)
    (h : ∀ after, (∀ D, Spared D s.tree after.tree) → after.tree.renamed = s.tree.renamed →
        Inside s.tree after.tree id → after.tree.Reads known
        (.node origin { face with shape := f face.shape } kids) id → post () after) :
    Yields (reshape id f) s post := by
  have hshape : s.tree.shape id = face.shape := hreads.shape_eq
  refine reshape_yields ?_ fun after hafter hspared => ?_
  · rw [Tree.kind, hshape]
    exact hkind
  · have hfaces : ({ s.tree.node id with shape := f face.shape } : Node).face =
        { face with shape := f face.shape } := by
      rw [← show (s.tree.node id).face = face from hreads.face_eq]
      rfl
    rw [hshape] at hafter
    have hupdated := update_reads (fun D => hafter ▸ hspared D) rfl rfl hid hreads
    rw [hfaces] at hupdated
    refine h after hspared ?_ (hafter ▸ hupdated.1) (hafter ▸ hupdated.2)
    rw [hafter]
    cases id <;> rfl

end Pass

namespace TypeAccess

def Wide (face : Face) : Prop :=
  ∀ name kind modifiers type close, face.shape = .typeDef name kind modifiers type close →
    modifiers.any (fun modifier => modifier.isAmong narrow) = false

theorem any_narrow_widened (modifiers : List Name) :
    (widened modifiers).any (fun modifier => modifier.isAmong narrow) = false := by
  rw [any_eq_false]
  intro modifier hmodifier
  rcases mem_cons.mp hmodifier with rfl | hmodifier
  · decide
  · have hout := (mem_filter.mp hmodifier).2
    cases modifier with
    | text word => simp_all [Name.isAmong]
    | other value => simp [Name.isAmong]

theorem widen_becomes : Becomes (Familiar known) known (fun _ new => Wide new.face) widen := by
  rintro s id ⟨origin, face, kids⟩ hground hid hreads
  refine Yields.read ?_
  rw [hreads.shape_eq, Term.face_node]
  split
  · rename_i name kind modifiers type close hshape
    split
    · refine Yields.bind (reshape_reads ?_ hid hreads fun middle hspared _ hinside hresult => ?_)
      · rw [hshape]
        rfl
      · refine Yields.say fun after hafter => ?_
        rw [← hafter] at hspared hinside hresult
        refine ⟨hground.of_spared (hspared fun _ => False), id, _, hinside.turned hid, hresult, ?_⟩
        rintro _ _ _ _ _ ⟨⟩
        exact any_narrow_widened modifiers
    · rename_i hwide
      refine BecomesBy.stay hground hid hreads ?_
      intro _ _ _ _ _ hother
      rw [Term.face_node, hshape] at hother
      cases hother
      simpa using hwide
  · rename_i hother
    refine BecomesBy.stay hground hid hreads ?_
    intro name kind modifiers type close hshape
    exact (hother name kind modifiers type close hshape).elim

theorem widen_quiet (h : Wide (t.node id).face) : Quiet (widen id) t := by
  refine Answers.read ?_
  split
  · rename_i name kind modifiers type close hshape
    rw [if_neg (by simp [h name kind modifiers type close hshape])]
    exact Answers.pure ()
  · exact Answers.pure ()

/-- The top-level types of every module that is reached have no narrow access.  What is in a module
is not gone through any further. -/
def Rests : Term → Prop :=
  Term.fold fun _ face kids outcomes =>
    if face.shape.kind = .module then ∀ member ∈ (kidsAt .members kids).toList, Wide member.face
    else ∀ outcome ∈ allKids outcomes, outcome

theorem rests_node_iff :
    Rests (.node origin face kids) ↔
      if face.shape.kind = .module then ∀ member ∈ (kidsAt .members kids).toList, Wide member.face
      else ∀ kid ∈ allKids kids, Rests kid := by
  rw [Rests, Term.fold_node, allKids_mapKids, forall_mem_map]

theorem rule_becomes (hvisit : Becomes (Familiar known) known (fun _ new => Rests new) visit) :
    Becomes (Familiar known) known (fun _ new => Rests new) (rule visit) := by
  rintro s id ⟨origin, face, kids⟩ hground hid hreads
  refine Yields.read ?_
  rw [show s.tree.kind id = face.shape.kind from congrArg Shape.kind hreads.shape_eq]
  split
  · rename_i hmodule
    refine Yields.mono (forM_listed_becomes widen_becomes hground hid hreads .members) ?_
    rintro _ after ⟨hafter, hinside, first, hfirst, hresult⟩
    refine ⟨hafter, id, _, hinside.turned hid, hresult, rests_node_iff.mpr ?_⟩
    rw [if_pos hmodule]
    intro member hmember
    rcases kidsAt_setKids_or .members first kids with heq | heq
    · rw [heq] at hmember
      obtain ⟨_, _, hwide⟩ := exists_of_forall₂ hfirst.toList.flip hmember
      exact hwide
    · rw [heq] at hmember
      cases hmember
  · rename_i hother
    refine Yields.mono (descend_becomes_all hvisit hground hid hreads) ?_
    rintro _ after ⟨hafter, hinside, others, hothers, hresult⟩
    refine ⟨hafter, id, _, hinside.turned hid, hresult, rests_node_iff.mpr ?_⟩
    rw [if_neg hother]
    intro kid hkid
    obtain ⟨_, _, hrests⟩ := hothers.exists_right hkid
    exact hrests

theorem rule_quiet {term : Term} (hreads : t.Reads known term id) (hrests : Rests term)
    (hvisit : ∀ c ∈ t.children id, ∀ kid, t.Reads known kid c → Rests kid → Quiet (visit c) t) :
    Quiet (rule visit id) t := by
  obtain ⟨origin, face, kids⟩ := term
  rw [rests_node_iff] at hrests
  refine Answers.read ?_
  rw [show t.kind id = face.shape.kind from congrArg Shape.kind hreads.shape_eq]
  split
  · rename_i hmodule
    rw [if_pos hmodule] at hrests
    refine quiet_forM fun c hc => widen_quiet ?_
    obtain ⟨member, hmember, hread⟩ := exists_of_forall₂ (hreads.kids.at_role .members).toList hc
    rw [hread.face_eq]
    exact hrests member hmember
  · rename_i hother
    rw [if_neg hother] at hrests
    refine quiet_descend fun c hc => ?_
    obtain ⟨kid, hkid, hread⟩ := hreads.child hc
    exact hvisit c hc kid hread (hrests kid hkid)

theorem everywhere_settles (hsound : s.tree.Sound) : Settling (everywhere rule) s :=
  Pass.everywhere_settles (fun _ hvisit => rule_becomes hvisit) (fun _ _ h => h)
    (fun _ _ _ _ hreads hrests hvisit => rule_quiet hreads hrests hvisit) (fun _ => False.elim)
      hsound

end TypeAccess

namespace Shape

theorem name?_mapName (g : Name → Name) (shape : Shape) :
    (shape.mapName g).name? = shape.name?.map g := by
  cases shape <;> rfl

theorem mapName_eq_self {g : Name → Name} (h : ∀ name, shape.name? = some name → g name = name) :
    shape.mapName g = shape := by
  cases shape <;> simp_all [name?, mapName]

end Shape

namespace ReservedWords

variable {f : String → String} {table : List (String × String)} {name : String} {faces : Kids Face}

/-! ## Names -/

theorem not_reserved_marked (name : String) : reserved.contains ("@" ++ name) = false := by
  have hfirst : reserved.all (fun word => word.toList.head? != some '@') = true := by decide +kernel
  rw [contains_eq_any_beq, any_eq_false]
  intro word hword heq
  have hmarked := all_eq_true.mp hfirst word hword
  rw [← eq_of_beq heq] at hmarked
  simp at hmarked

theorem not_reserved_escaped (name : String) : reserved.contains (escaped name) = false := by
  unfold escaped
  split
  · exact not_reserved_marked name
  · rename_i hfree
    simpa using hfree

theorem escaped_escaped (name : String) : escaped (escaped name) = escaped name :=
  if_neg (by rw [not_reserved_escaped name]; exact Bool.false_ne_true)

def Renames (table : List (String × String)) : Prop :=
  ∀ entry ∈ table, reserved.contains entry.1 = true ∧ entry.2 = escaped entry.1

def renamedBy (table : List (String × String)) (name : String) : String :=
  (List.lookup name table).getD name

theorem renamedBy_renamedBy (h : Renames table) (name : String) :
    renamedBy table (renamedBy table name) = renamedBy table name := by
  cases hfound : List.lookup name table with
  | none => simp [renamedBy, hfound]
  | some other =>
    obtain ⟨before, after, rfl, _⟩ := lookup_eq_some_iff.mp hfound
    have hother : other = escaped name := (h (name, other) (by simp)).2
    have hnone : List.lookup other (before ++ (name, other) :: after) = none := by
      rw [lookup_eq_none_iff]
      intro entry hentry
      rw [bne_iff_ne]
      intro heq
      have hreserved := (h entry hentry).1
      rw [← heq, hother, not_reserved_escaped] at hreserved
      cases hreserved
    simp [renamedBy, hfound, hnone]

theorem noteRenaming_renames (h : Renames t.renamed) (hname : reserved.contains name = true) :
    Renames (noteRenaming t name).renamed := by
  unfold noteRenaming
  split
  · intro entry hentry
    obtain ⟨old, hold, rfl⟩ := mem_map.mp hentry
    split
    · exact ⟨hname, rfl⟩
    · exact h old hold
  · intro entry hentry
    rcases mem_append.mp hentry with hold | hnew
    · exact h entry hold
    · rw [mem_singleton.mp hnew]
      exact ⟨hname, rfl⟩

theorem reserved_of_reservedName? (h : reservedName? t id = .ok (some name)) :
    reserved.contains name = true := by
  unfold reservedName? at h
  split at h
  · obtain ⟨key, _, hfilter⟩ := Except.map_eq_ok h
    exact (Option.filter_eq_some_iff.mp hfilter).2
  · cases h

theorem learnRenamings_renames (h : Renames s.tree.renamed) :
    Yields learnRenamings s fun _ after => Renames after.tree.renamed := by
  refine Yields.read ?_
  refine Yields.forM (fun after => Renames after.tree.renamed) h ?_
  intro other _ middle hmiddle
  refine Yields.bind (Yields.ofExcept fun found hfound => ?_)
  split
  · exact Yields.change (noteRenaming_renames hmiddle (reserved_of_reservedName? hfound))
  · exact Yields.pure hmiddle

/-! ## Renamed nodes -/

def Settled (f : String → String) (shape : Shape) : Prop :=
  ∀ name, shape.name? = some name → (∃ key, name.key? = .ok key) ∧ name.mapText f = name

theorem mapText_mapText (hf : ∀ word, f (f word) = f word) (name : Name) :
    (name.mapText f).mapText f = name.mapText f := by
  cases name with
  | text word => simp [Name.mapText, hf]
  | other value => rfl

theorem rename_quiet (h : Settled f (t.shape id)) : Quiet (Pass.rename id f) t := by
  refine Answers.read ?_
  split
  · rename_i name hname
    obtain ⟨⟨key, hkey⟩, _⟩ := h name hname
    refine Answers.bind (Answers.ofExcept hkey) ?_
    split
    · have hshape : (t.shape id).mapName (fun name => name.mapText f) = t.shape id :=
        Shape.mapName_eq_self fun name hname => (h name hname).2
      intro report
      show EStateM.Result.ok () (Session.mk (t.setShape id ((t.shape id).mapName _)) report) = _
      rw [hshape, setShape, update_self rfl]
    · exact Answers.pure ()
  · exact Answers.pure ()

/-- What the pass looks after: the roles of the nodes, and the table of new names, which does not
change. -/
structure Grounded (known : NodeId → Prop) (table : List (String × String)) (t : Tree) : Prop where
  familiar : Familiar known t
  renamed : t.renamed = table

theorem rename_reads {origin : Option NodeId} {face : Face} {kids : Kids Term}
    {post : Unit → Session → Prop} (hground : Grounded known table s.tree)
    (hid : s.tree.Standing id) (hreads : s.tree.Reads known (.node origin face kids) id)
    (h : ∀ after g, Grounded known table after.tree → Inside s.tree after.tree id →
      after.tree.Reads known (.node origin { face with shape := face.shape.mapName g } kids) id →
      ((∀ word, f (f word) = f word) → Settled f (face.shape.mapName g)) → post () after) :
    Yields (Pass.rename id f) s post := by
  have hunchanged : Settled f face.shape → post () s := by
    intro hsettled
    have hsame : face.shape.mapName (fun name => name) = face.shape := Shape.mapName_eq_self
      fun _ _ => rfl
    refine h s (fun name => name) hground (Inside.refl _ _) ?_ fun _ => ?_
    · rwa [hsame]
    · rwa [hsame]
  refine Yields.read ?_
  rw [hreads.shape_eq, Term.face_node]
  split
  · rename_i name hname
    refine Yields.bind (Yields.ofExcept fun key hkey => ?_)
    split
    · refine reshape_reads (kind_mapName _ _) hid hreads
        fun after hspared hrenamed hinside hresult => ?_
      refine h after _ ⟨hground.familiar.of_spared (hspared fun _ => False),
        hrenamed.trans hground.renamed⟩ hinside hresult fun hf other hother => ?_
      rw [Shape.name?_mapName, hname] at hother
      cases hother
      refine ⟨?_, mapText_mapText hf name⟩
      cases name with
      | text word => exact ⟨_, rfl⟩
      | other value => exact ⟨_, hkey⟩
    · refine Yields.pure (hunchanged fun other hother => ?_)
      rw [hname] at hother
      cases hother
      refine ⟨⟨none, hkey⟩, ?_⟩
      cases name with
      | text word => cases hkey
      | other value => rfl
  · rename_i hnone
    refine Yields.pure (hunchanged fun name hname => ?_)
    rw [hnone] at hname
    cases hname

def renaming? (table : List (String × String)) : Shape → Option (String → String)
  | .typeDef _ _ _ _ _ | .enumMember _ | .method _ | .constructor _ | .field _ _ _
  | .parameter _ _ _ | .declaration _ _ | .memberAccess _ _ _ => some escaped
  | .reference _ (some symbol) _ =>
    if escapedKinds.contains symbol.kind then some escaped
    else if symbol.kind == .type then some (renamedBy table)
    else none
  | _ => none

theorem renaming?_mapName (table : List (String × String)) (g : Name → Name) (shape : Shape) :
    renaming? table (shape.mapName g) = renaming? table shape := by
  cases shape with
  | reference name symbol type => cases symbol <;> rfl
  | _ => rfl

def Calm (table : List (String × String)) (face : Face) (_ : Kids Face) : Prop :=
  ∀ f, renaming? table face.shape = some f → Settled f face.shape

theorem renaming?_idempotent (h : Renames table) (hf : renaming? table shape = some f)
    (word : String) :
    f (f word) = f word := by
  unfold renaming? at hf
  split at hf
  case h_9 =>
    split at hf
    · cases hf
      exact escaped_escaped word
    · split at hf
      · cases hf
        exact renamedBy_renamedBy h word
      · cases hf
  case h_10 => cases hf
  all_goals
    cases hf
    exact escaped_escaped word

theorem calm_of_renaming? (hf : renaming? table face.shape = some f)
    (hsettled : Settled f face.shape) :
    Calm table face faces := by
  intro g hg
  rw [hf] at hg
  cases hg
  exact hsettled

theorem calm_of_none (h : renaming? table face.shape = none) : Calm table face faces := by
  intro f hf
  rw [h] at hf
  cases hf

def Escapes (table : List (String × String)) (term : Term) : Prop :=
  Renames table → term.Throughout (Calm table)

theorem rule_becomes
    (hvisit : Becomes (Grounded known table) known (fun _ new => Escapes table new) visit) :
    Becomes (Grounded known table) known (fun _ new => Escapes table new) (rule visit) := by
  rintro s id ⟨origin, face, kids⟩ hground hid hreads
  have hdescend : ∀ middle face', Grounded known table middle.tree → Inside s.tree middle.tree id →
      middle.tree.Reads known (.node origin face' kids) id →
        Calm table face' (mapKids Term.face kids) →
      Yields (descend visit id) middle fun _ after => Grounded known table after.tree ∧ ∃ new term,
        Turned s.tree after.tree id new ∧ after.tree.Reads known term new ∧ Escapes table term := by
    intro middle face' hmiddle hinside hread hcalm
    refine Yields.mono (descend_becomes_all hvisit hmiddle (hid.of_within hinside.spared) hread) ?_
    rintro _ after ⟨hafter, hinner, others, hothers, hresult⟩
    refine ⟨hafter, id, _, (hinside.trans hinner hid).turned hid, hresult, fun htable =>
      Term.throughout_node_iff.mpr ⟨hcalm, ?_⟩⟩
    intro kid hkid
    obtain ⟨_, _, hkid⟩ := hothers.exists_right hkid
    exact hkid htable
  have hrenamed : renaming? table face.shape = some escaped →
      BecomesBy (Grounded known table) known (Escapes table)
        (do Pass.rename id escaped; descend visit id) s id := by
    intro hf
    refine Yields.bind (rename_reads hground hid hreads
      fun middle g hmiddle hinside hread hsettled => ?_)
    refine hdescend middle _ hmiddle hinside hread (calm_of_renaming? ?_ (hsettled escaped_escaped))
    rwa [renaming?_mapName]
  have hleaf : face.shape.kind = .reference → kids = [] := by
    intro hkind
    have hroles := hreads.roles hground.familiar.tidy
    rw [hkind] at hroles
    exact map_eq_nil_iff.mp hroles
  have hname : face.shape.kind = .reference → ∀ f, renaming? table face.shape = some f →
      BecomesBy (Grounded known table) known (Escapes table) (Pass.rename id f) s id := by
    intro hkind f hf
    refine rename_reads hground hid hreads fun after g hafter hinside hread hsettled => ?_
    refine ⟨hafter, id, _, hinside.turned hid, hread, fun htable => Term.throughout_node_iff.mpr
      ⟨calm_of_renaming? ?_ (hsettled (renaming?_idempotent htable hf)), ?_⟩⟩
    · rwa [renaming?_mapName]
    · simp [hleaf hkind, allKids]
  refine Yields.read ?_
  rw [hreads.shape_eq, Term.face_node]
  split
  case h_9 name symbol type hshape =>
    have hkind : face.shape.kind = .reference := by rw [hshape]; rfl
    split
    · rename_i hescaped
      exact hname hkind escaped (by rw [hshape, renaming?, if_pos hescaped])
    · rename_i hescaped
      split
      · rename_i htype
        refine hname hkind (renamedBy s.tree.renamed) ?_
        rw [hground.renamed, hshape, renaming?, if_neg hescaped, if_pos htype]
      · rename_i htype
        refine BecomesBy.stay hground hid hreads fun _ =>
          Term.throughout_node_iff.mpr ⟨calm_of_none ?_, ?_⟩
        · rw [hshape, renaming?, if_neg hescaped, if_neg htype]
        · simp [hleaf hkind, allKids]
  case h_10 =>
    refine hdescend s face hground (Inside.refl _ _) hreads (calm_of_none ?_)
    unfold renaming?
    split <;> grind
  all_goals
    rename_i hshape
    exact hrenamed (by rw [hshape]; rfl)

theorem rule_quiet (hcalm : Calm t.renamed (t.node id).face (t.kidFaces id))
    (hdescend : Quiet (descend visit id) t) :
    Quiet (rule visit id) t := by
  have hquiet : ∀ f, renaming? t.renamed (t.shape id) = some f → Quiet (Pass.rename id f) t :=
    fun f hf => rename_quiet (hcalm f hf)
  refine Answers.read ?_
  split
  case h_9 name symbol type hshape =>
    split
    · rename_i hescaped
      exact hquiet escaped (by rw [hshape, renaming?, if_pos hescaped])
    · rename_i hescaped
      split
      · rename_i htype
        exact hquiet (currentName t) (by rw [hshape, renaming?, if_neg hescaped, if_pos htype]; rfl)
      · exact Answers.pure ()
  case h_10 => exact hdescend
  all_goals
    rename_i hshape
    exact Answers.bind (hquiet escaped (by rw [hshape]; rfl)) hdescend

theorem reservedName?_of_calm (hcalm : Calm table (t.node id).face (t.kidFaces id)) :
    reservedName? t id = .ok none := by
  unfold reservedName?
  split
  · rename_i name _ _ _ _ hshape
    obtain ⟨⟨key, hkey⟩, hsame⟩ :=
      hcalm escaped (by rw [show (t.node id).face.shape = _ from hshape]; rfl) name
      (by rw [show (t.node id).face.shape = _ from hshape]; rfl)
    rw [hkey]
    cases name with
    | text word =>
      cases hkey
      have hescaped : escaped word = word := by simpa [Name.mapText] using hsame
      have hfree := not_reserved_escaped word
      rw [hescaped] at hfree
      simp only [Except.map, Option.filter_some, hfree]
      rfl
    | other value =>
      simp only [Name.key?] at hkey
      split at hkey
      · cases hkey
        rfl
      · cases hkey
  · rfl

theorem learnRenamings_quiet (h : ∀ a, t.Beneath t.root a → reservedName? t a = .ok none) :
    Quiet learnRenamings t := by
  refine Answers.read (quiet_forM fun a ha => ?_)
  refine Answers.bind (Answers.ofExcept (h a (beneath_of_mem_walk ha))) ?_
  exact Answers.pure ()

theorem pass_settles (hsound : s.tree.Sound) :
    Yields pass s fun _ after => s.tree.SparesRoot after.tree ∧
      (Renames s.tree.renamed → Quiet pass after.tree) := by
  refine Yields.bind ?_
  intro _ middle hrun
  obtain ⟨hnodes, hloose, hroot⟩ := learnRenamings_yields _ middle hrun
  have hspared : Spared (fun _ => False) s.tree middle.tree :=
    Spared.of_same_store hnodes hloose hroot
  have hmiddle : middle.tree.Sound := hsound.of_spared hspared fun h => h
  obtain ⟨term, hterm⟩ := Reads.exists_of_intact (fun _ => False) hmiddle.intact
  refine Yields.mono (everywhere_becomes (fun _ hvisit => rule_becomes hvisit)
    ⟨⟨hmiddle.tidy, fun _ => False.elim⟩, rfl⟩ hmiddle hterm) ?_
  rintro _ after ⟨hground, ⟨D, hrest, hfree⟩, other, hescapes, hreads⟩
  have hafter := hmiddle.of_spared hrest hfree
  refine ⟨⟨D, (hspared.mono fun _ _ => False.elim).trans hrest fun _ _ h => h, hroot ▸ hfree⟩,
    fun hrenames => ?_⟩
  have hcalm := hescapes (learnRenamings_renames hrenames _ middle hrun)
  have hnode : ∀ a found, after.tree.Reads (fun _ => False) found a →
      found.Throughout (Calm middle.tree.renamed) →
      Calm after.tree.renamed (after.tree.node a).face (after.tree.kidFaces a) := by
    intro a found hfound hcalm
    rw [hground.renamed, hfound.face_eq, hfound.kidFaces_eq]
    exact hcalm found Relation.ReflTransGen.refl
  refine Answers.bind (learnRenamings_quiet fun a ha => ?_)
    (everywhere_quiet_of_term ?_ hafter.intact hreads hcalm)
  · obtain ⟨found, hoccurs, hfound⟩ := hreads.occurs_of_beneath ha
    exact reservedName?_of_calm (hnode a found hfound (hreads.throughout hcalm ha hfound))
  · intro visit id found hfound hcalm hvisit
    refine rule_quiet (hnode id found hfound hcalm) (quiet_descend fun c hc => ?_)
    obtain ⟨kid, _, hkid⟩ := hfound.kids.exists_left hc
    exact hvisit c hc kid hkid (hfound.throughout hcalm (Beneath.of_child hc) hkid)

end ReservedWords

end UnitySharp
