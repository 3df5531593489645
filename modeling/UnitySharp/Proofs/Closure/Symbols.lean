import UnitySharp.Proofs.Closure.Inlining
import UnitySharp.Proofs.Document.Reading

/-!
# Symbols while capture records go away

Doing away with capture records brings no symbols into a tree but those it coins, and closures can
use these by themselves.  So no name that is put in the place of an access is ever taken for a
context.
-/

namespace UnitySharp

open UnitySharp.Tree Pass List

variable {t₀ t t' : Tree} {id value : NodeId} {symbol context : Symbol} {draft : Draft}
  {name : Name}

namespace Symbol

def CoinedSince (t : Tree) (symbol : Symbol) : Prop :=
  ∃ serial, symbol.origin = .coined serial ∧ t.coined ≤ serial

def Addressable (symbol : Symbol) : Prop :=
  symbol.kind = .parameter ∨ symbol.kind = .field ∨
    (symbol.kind = .localVariable ∧ symbol.isSynthetic = false)

def MadeUp (symbol : Symbol) : Prop :=
  symbol.kind = .localVariable ∧ symbol.isSynthetic = true

theorem MadeUp.not_addressable (h : symbol.MadeUp) : ¬symbol.Addressable := by
  rintro (hparameter | hfield | ⟨_, hplain⟩)
  · rw [h.1] at hparameter
    cases hparameter
  · rw [h.1] at hfield
    cases hfield
  · rw [h.2] at hplain
    cases hplain

end Symbol

namespace Tree

/-- Symbols with one origin are of one kind, and none has been coined ahead of time. -/
structure SymbolsAgree (t : Tree) : Prop where
  old : ∀ a symbol, (t.shape a).symbol? = some symbol → ¬symbol.CoinedSince t
  same : ∀ a b first second, (t.shape a).symbol? = some first → (t.shape b).symbol? = some second →
    first.isSame second = true → first.kind = second.kind ∧ first.isSynthetic = second.isSynthetic

def Source (t₀ : Tree) (symbol : Symbol) : Prop :=
  (∃ a, (t₀.shape a).symbol? = some symbol) ∨ symbol.CoinedSince t₀ ∧ symbol.Addressable

/-- A tree made from an earlier one has the symbols of that one, and some coined since. -/
structure Inherits (t₀ t : Tree) : Prop where
  coined_le : t₀.coined ≤ t.coined
  symbol : ∀ a symbol, (t.shape a).symbol? = some symbol → t₀.Source symbol

/-- A name that closures can use by themselves does not name a context. -/
theorem Source.not_isSame (hagree : t₀.SymbolsAgree) (hcontext : t₀.Source context)
    (hmade : context.MadeUp) (h : t₀.Source symbol) (hplain : symbol.Addressable) :
    symbol.isSame context = false := by
  refine Bool.eq_false_iff.mpr fun hsame => ?_
  obtain ⟨b, hb⟩ := hcontext.resolve_right fun hcoined => hmade.not_addressable hcoined.2
  rcases h with ⟨a, ha⟩ | ⟨⟨serial, hserial, hle⟩, _⟩
  · obtain ⟨hkind, hsynthetic⟩ := hagree.same a b symbol context ha hb hsame
    exact Symbol.MadeUp.not_addressable ⟨hkind.trans hmade.1, hsynthetic.trans hmade.2⟩ hplain
  · have horigin : symbol.origin = context.origin := eq_of_beq hsame
    exact hagree.old b context hb ⟨serial, horigin.symm.trans hserial, hle⟩

/-! ## Drafts -/

end Tree

inductive Draft.Names (P : Symbol → Prop) : Draft → Prop where
  | kept {id : NodeId} : Draft.Names P (.kept id)
  | fresh {shape : Shape} {position : Option Position} {kids : Kids Draft}
      (hshape : ∀ symbol, shape.symbol? = some symbol → P symbol)
        (hkids : ∀ draft ∈ allKids kids, Draft.Names P draft) :
      Draft.Names P (.fresh shape position kids)
  | typed {type : Option Ty} {draft : Draft} (h : Draft.Names P draft) :
      Draft.Names P (.typed type draft)

/-- A draft of a name, as the root of the draft shows it. -/
def Draft.Refers (draft : Draft) (symbol : Symbol) : Prop :=
  ∃ name type position kids, draft = .fresh (.reference name (some symbol) type) position kids ∨
    ∃ given, draft = .typed given (.fresh (.reference name (some symbol) type) position kids)

namespace Tree

theorem names_ofSymbol (h : t₀.Source symbol) (position : Option Position) :
    (Draft.ofSymbol symbol position).Names t₀.Source := by
  refine .fresh ?_ (by rintro _ ⟨⟩)
  rintro _ ⟨⟩
  exact h

theorem names_declaration (h : t₀.Source symbol) (type : Option Ty) (value : Option NodeId)
    (position : Option Position) :
    (Draft.declaration symbol type (value.map Draft.kept) position).Names t₀.Source := by
  have htype : ∀ named, (Draft.typeRef named).Names t₀.Source := fun named =>
    .fresh (by rintro _ ⟨⟩) (by rintro _ ⟨⟩)
  refine .fresh (by rintro _ ⟨⟩; exact h) fun draft hdraft => ?_
  simp only [allKids_cons, allKids_nil, append_nil, mem_append] at hdraft
  rcases hdraft with hdraft | hdraft
  · cases type with
    | none => cases hdraft
    | some named => exact mem_singleton.mp hdraft ▸ htype named
  · cases value with
    | none => cases hdraft
    | some kept => exact mem_singleton.mp hdraft ▸ .kept

namespace Inherits

theorem names_copyWithin (h : t₀.Inherits t) (depth : Nat) (id : NodeId) :
    (t.copyWithin depth id).Names t₀.Source := by
  induction depth generalizing id with
  | zero => exact .kept
  | succ depth ih =>
    have hcopied : (Draft.fresh (t.node id).shape (t.node id).position
        (mapKids (t.copyWithin depth) (t.node id).kids)).Names t₀.Source := by
      refine .fresh (h.symbol id) fun draft hdraft => ?_
      rw [allKids_mapKids] at hdraft
      obtain ⟨c, _, rfl⟩ := mem_map.mp hdraft
      exact ih c
    simp only [copyWithin]
    split
    · exact .typed hcopied
    · exact hcopied

/-! ## Edits -/

theorem refl (t : Tree) : t.Inherits t :=
  ⟨Nat.le_refl _, fun a _ h => Or.inl ⟨a, h⟩⟩

theorem update {f : Node → Node} (h : t₀.Inherits t)
    (hf : ∀ node, (f node).shape.symbol? = node.shape.symbol?) :
    t₀.Inherits (t.update id f) where
  coined_le := by cases id <;> exact h.coined_le
  symbol := by
    intro a symbol hsymbol
    apply h.symbol a
    rw [← hsymbol]
    exact (proj_node_update (g := fun node => node.shape.symbol?) (hf _) a).symm

theorem setParent (h : t₀.Inherits t) (up : Option NodeId) : t₀.Inherits (t.setParent id up) :=
  h.update fun _ => rfl

theorem setRole (h : t₀.Inherits t) (role : Role) (occupants : Occupants NodeId) :
    t₀.Inherits (t.setRole id role occupants) :=
  h.update fun _ => rfl

theorem setType (h : t₀.Inherits t) (type : Option Ty) : t₀.Inherits (t.setType id type) := by
  refine h.update fun node => ?_
  unfold Node.withType
  split
  · exact symbol?_withType ..
  · rfl

theorem pushNode {node : Node} (h : t₀.Inherits t)
    (hnode : ∀ symbol, node.shape.symbol? = some symbol → t₀.Source symbol) :
      t₀.Inherits (t.pushNode node).2 where
  coined_le := h.coined_le
  symbol := by
    intro a symbol hsymbol
    by_cases heq : a = (t.pushNode node).1
    · rw [heq, shape, node_pushNode_new] at hsymbol
      exact hnode symbol hsymbol
    · rw [shape, node_pushNode_ne heq] at hsymbol
      exact h.symbol a symbol hsymbol

theorem adoptWithin (h : t₀.Inherits t) (depth : Nat) (up : Option NodeId) (id : NodeId) :
    t₀.Inherits (Tree.adoptWithin depth t up id) := by
  induction depth generalizing t up id with
  | zero => exact h
  | succ depth ih =>
    have hfold : ∀ (ids : List NodeId) (u : Tree), t₀.Inherits u →
        t₀.Inherits (ids.foldl (fun t c => Tree.adoptWithin depth t (some id) c) u) := by
      intro ids
      induction ids with
      | nil => exact fun _ hu => hu
      | cons c rest ihrest => exact fun u hu => ihrest _ (ih hu _ c)
    exact hfold _ _ (h.setParent up)

section

variable {settle : Tree → NodeId → NodeId × Tree}
  (hsettle : ∀ t id, t₀.Inherits t → t₀.Inherits (settle t id).2)

include hsettle

theorem settleAll (h : t₀.Inherits t) (ids : List NodeId) :
    t₀.Inherits (Tree.settleAll settle t ids).2 := by
  induction ids generalizing t with
  | nil => exact h
  | cons id rest ih => exact ih (hsettle t id h)

theorem settleKids (h : t₀.Inherits t) (kids : Kids NodeId) :
    t₀.Inherits (Tree.settleKids settle t kids).2 := by
  induction kids generalizing t with
  | nil => exact h
  | cons entry rest ih =>
    obtain ⟨role, occupants⟩ := entry
    apply ih
    cases occupants with
    | empty => exact h
    | one c => exact hsettle t c h
    | many ids => exact settleAll hsettle h ids

end

theorem settleWithin (h : t₀.Inherits t) (depth : Nat) (id : NodeId) :
    t₀.Inherits (Tree.settleWithin depth t id).2 := by
  induction depth generalizing t id with
  | zero => exact h
  | succ depth ih =>
    have hslot : t₀.Inherits (t.giveSlot id).2 := by
      cases id with
      | slot n => exact h
      | loose n => exact h.pushNode (h.symbol _)
    exact (settleKids (fun _ other hother => ih hother other) hslot _).update fun _ => rfl

theorem settle (h : t₀.Inherits t) (id : NodeId) : t₀.Inherits (t.settle id).2 := by
  unfold Tree.settle
  split
  · exact h
  · exact h.settleWithin _ id

end Inherits

mutual

/-- Planting brings in the symbols that the draft names, and no others. -/
theorem plant_inherits (up : Option NodeId) : (draft : Draft) → (t : Tree) → draft.Names t₀.Source →
    t₀.Inherits t → t₀.Inherits (t.plant up draft).2
  | .kept id, t, _, h => by
      simp only [plant]
      exact (h.settle id).adoptWithin _ up _
  | .fresh shape position kids, t, .fresh hshape hkids, h => by
      simp only [plant]
      exact (plantKids_inherits _ kids _ hkids (h.pushNode hshape)).update fun _ => rfl
  | .typed type draft, t, .typed hdraft, h => (plant_inherits up draft t hdraft h).setType type

theorem plantKids_inherits (p : NodeId) : (kids : List (Role × Occupants Draft)) → (t : Tree) →
    (∀ draft ∈ allKids kids, draft.Names t₀.Source) → t₀.Inherits t →
      t₀.Inherits (t.plantKids p kids).2
  | [], _, _, h => h
  | (role, occupants) :: rest, t, hkids, h => by
      rw [allKids_cons, forall_mem_append] at hkids
      exact plantKids_inherits p rest _ hkids.2 (plantOccupants_inherits p occupants t hkids.1 h)

theorem plantOccupants_inherits (p : NodeId) : (occupants : Occupants Draft) → (t : Tree) →
    (∀ draft ∈ occupants.toList, draft.Names t₀.Source) → t₀.Inherits t →
      t₀.Inherits (t.plantOccupants p occupants).2
  | .empty, _, _, h => h
  | .one draft, t, hall, h => plant_inherits (some p) draft t (hall draft mem_cons_self) h
  | .many drafts, t, hall, h => plantAll_inherits p drafts t hall h

theorem plantAll_inherits (p : NodeId) : (drafts : List Draft) → (t : Tree) →
    (∀ draft ∈ drafts, draft.Names t₀.Source) → t₀.Inherits t → t₀.Inherits (t.plantAll p drafts).2
  | [], _, _, h => h
  | draft :: rest, t, hall, h => by
      rw [forall_mem_cons] at hall
      exact plantAll_inherits p rest _ hall.2 (plant_inherits (some p) draft t hall.1 h)

end

namespace Inherits

theorem remove (h : t₀.Inherits t) (hremove : t.remove id = .ok t') : t₀.Inherits t' := by
  unfold Tree.remove at hremove
  split at hremove
  · cases hremove
  · split at hremove
    · cases hremove
      exact (h.setRole _ _).setParent none
    · cases hremove
      exact (h.setRole _ _).setParent none

theorem replace {new : NodeId} (h : t₀.Inherits t) (hdraft : draft.Names t₀.Source)
    (hreplace : t.replace id draft = .ok (new, t')) : t₀.Inherits t' := by
  unfold Tree.replace at hreplace
  split at hreplace
  · cases hreplace
  · have hplanted := fun up => plant_inherits up draft (t.detach id) hdraft (h.setParent none)
    simp only at hreplace
    split at hreplace
    · cases hreplace
      exact (hplanted _).setRole _ _
    · cases hreplace
      exact (hplanted _).setRole _ _

theorem splice {drafts : List Draft} {ids : List NodeId} (h : t₀.Inherits t)
    (hdrafts : ∀ draft ∈ drafts, draft.Names t₀.Source)
    (hsplice : t.splice id drafts = .ok (ids, t')) :
    t₀.Inherits t' := by
  unfold Tree.splice at hsplice
  split at hsplice
  · cases hsplice
  · cases hsplice
    exact (plantAll_inherits _ drafts (t.detach id) hdrafts (h.setParent none)).setRole _ _

end Inherits

end Tree

/-! ## Gathering -/

namespace Closure

variable {s : Session} {gathered : Gathered} {copy : CapturedCopy}
  {statement capture scope : NodeId} {table : CaptureTable}

def StandsBy (t₀ : Tree) (draft : Draft) : Prop :=
  draft.Names t₀.Source ∧ ∃ symbol, draft.Refers symbol ∧ symbol.Addressable ∧ t₀.Source symbol

structure Gleans (t₀ : Tree) (gathered : Gathered) (t : Tree) : Prop where
  inherits : t₀.Inherits t
  table : ∀ entry ∈ gathered.table, StandsBy t₀ entry.2
  hoisted : ∀ draft ∈ gathered.hoisted, draft.Names t₀.Source

theorem Gleans.hoist (h : Gleans t₀ gathered t) (hdraft : draft.Names t₀.Source) :
    Gleans t₀ (gathered.hoist draft) t where
  inherits := h.inherits
  table := h.table
  hoisted := by
    intro other hother
    rcases mem_append.mp hother with hother | hother
    · exact h.hoisted other hother
    · exact mem_singleton.mp hother ▸ hdraft

theorem note_gleans (h : Gleans t₀ gathered s.tree) (hdraft : StandsBy t₀ draft) :
    Yields (gathered.note name draft) s fun noted after => Gleans t₀ noted after.tree := by
  refine Yields.bind (Yields.ofExcept fun table hset =>
    Yields.pure ⟨h.inherits, fun entry hentry => ?_, h.hoisted⟩)
  obtain ⟨_, _, rfl⟩ := Except.map_eq_ok hset
  rcases mem_cons.mp hentry with rfl | hentry
  · exact hdraft
  · exact h.table entry (mem_filter.mp hentry).1

theorem localFor_inherits (h : t₀.Inherits s.tree) :
    Yields (localFor copy value) s fun pair after =>
      t₀.Inherits after.tree ∧ pair.1.Addressable ∧ t₀.Source pair.1 := by
  refine Yields.bind (Yields.ofExcept fun name _ => Yields.read ?_)
  refine Yields.bind (Yields.typeAt fun _ => Yields.bind (Yields.ofExcept fun type _ => ?_))
  refine Yields.bind fun symbol after hrun => ?_
  cases hrun
  refine Yields.pure ⟨⟨Nat.le_trans h.coined_le (Nat.le_succ _), fun a symbol hsymbol => ?_⟩,
    Or.inr (Or.inr ⟨rfl, rfl⟩), Or.inr ⟨⟨_, rfl, h.coined_le⟩, Or.inr (Or.inr ⟨rfl, rfl⟩)⟩⟩
  exact h.symbol a symbol (by cases a <;> exact hsymbol)

theorem note_ofSymbol_gleans (h : Gleans t₀ gathered s.tree) (hplain : symbol.Addressable)
    (hsource : t₀.Source symbol) :
    Yields (gathered.note name (.ofSymbol symbol none)) s fun noted after =>
      Gleans t₀ noted after.tree :=
  note_gleans h ⟨names_ofSymbol hsource none, symbol,
    ⟨symbol.name, symbol.type, none, [], Or.inl rfl⟩, hplain, hsource⟩

theorem declareWithValue_gleans (h : Gleans t₀ gathered s.tree) :
    Yields (declareWithValue copy statement gathered) s fun pair after =>
      Gleans t₀ pair.2 after.tree ∧ pair.1.Names t₀.Source := by
  refine Yields.bind (valueOf_yields fun value _ => ?_)
  refine Yields.bind ((localFor_inherits h.inherits).mono
    fun pair coined ⟨hcoined, hplain, hsource⟩ => ?_)
  refine Yields.bind ((note_ofSymbol_gleans { h with inherits := hcoined } hplain hsource).mono ?_)
  intro noted middle hnoted
  refine Yields.bind (Yields.remove fun cut hremove => Yields.read (Yields.pure ⟨?_, ?_⟩))
  · exact { hnoted with inherits := hnoted.inherits.remove hremove }
  · exact names_declaration hsource _ (some value) _

theorem declareBare_gleans (h : Gleans t₀ gathered s.tree) :
    Yields (declareBare copy gathered) s fun pair after =>
      Gleans t₀ pair.2 after.tree ∧ pair.1.Names t₀.Source := by
  refine Yields.bind (valueOf_yields fun value _ => ?_)
  refine Yields.bind ((localFor_inherits h.inherits).mono
    fun pair coined ⟨hcoined, hplain, hsource⟩ => ?_)
  refine Yields.bind ((note_ofSymbol_gleans { h with inherits := hcoined } hplain hsource).mono ?_)
  intro noted middle hnoted
  exact Yields.pure ⟨hnoted, names_declaration hsource _ none _⟩

theorem standsBy_copy (h : t₀.Inherits t) (haddressable : t.isAddressable value = true) :
    StandsBy t₀ (t.copy value) := by
  refine ⟨h.names_copyWithin _ value, ?_⟩
  unfold isAddressable at haddressable
  split at haddressable
  · rename_i name symbol type hshape
    have hplain : symbol.Addressable := by
      simp only [Bool.or_eq_true, Bool.and_eq_true, beq_iff_eq, Bool.not_eq_true'] at haddressable
      exact or_assoc.mp haddressable
    refine ⟨symbol,
      ⟨name, type, (t.node value).position, mapKids (t.copyWithin t.size) (t.node value).kids, ?_⟩,
      hplain, h.symbol value symbol (by rw [hshape]; rfl)⟩
    simp only [Tree.copy, copyWithin, show (t.node value).shape = _ from hshape]
    cases (t.node value).givenType with
    | none => exact Or.inl rfl
    | some given => exact Or.inr ⟨given, rfl⟩
  · cases haddressable

theorem gatherInside_gleans (h : Gleans t₀ gathered s.tree) :
    Yields (gatherInside context gathered statement) s fun noted after =>
      Gleans t₀ noted after.tree := by
  refine Yields.read ?_
  split
  · exact Yields.pure (h.hoist .kept)
  split
  · rename_i value hvalue
    exact note_gleans h (standsBy_copy h.inherits (Option.filter_eq_some_iff.mp hvalue).2)
  · refine Yields.bind ((declareWithValue_gleans h).mono fun pair after hpair => ?_)
    exact Yields.pure (hpair.1.hoist hpair.2)

theorem gatherOutside_gleans {home : Option NodeId} (h : Gleans t₀ gathered s.tree) :
    Yields (gatherOutside context capture home gathered statement) s fun noted after =>
      Gleans t₀ noted after.tree := by
  refine Yields.read ?_
  split
  · exact Yields.pure h
  split
  · exact Yields.pure h
  refine Yields.bind (Yields.ofExcept fun found _ => ?_)
  split
  · exact Yields.pure h
  split
  · rename_i value hvalue
    have hcopy := standsBy_copy h.inherits (Option.filter_eq_some_iff.mp hvalue).2
    refine Yields.bind ((note_gleans h hcopy).mono fun noted middle hnoted => ?_)
    refine Yields.bind (Yields.remove fun removed hremove => Yields.pure ?_)
    exact { hnoted with inherits := hnoted.inherits.remove hremove }
  split
  · refine Yields.bind ((declareWithValue_gleans h).mono fun pair middle hpair => ?_)
    refine Yields.bind (Yields.edit fun new replaced hreplace => Yields.pure ?_)
    exact { hpair.1 with inherits := hpair.1.inherits.replace hpair.2 hreplace }
  · refine Yields.bind ((declareBare_gleans h).mono fun pair middle hpair => ?_)
    exact Yields.pure (hpair.1.hoist hpair.2)

/-- All that is gathered stands for captured variables under symbols that closures can use by
themselves. -/
theorem gather_gleans {home : Option NodeId} {statements : List NodeId} (h : t₀.Inherits s.tree) :
    Yields (gather context capture scope home statements) s fun gathered after =>
      Gleans t₀ gathered after.tree := by
  have hnone : Gleans t₀ ⟨[], []⟩ s.tree := ⟨h, by simp, by simp⟩
  have hinside : Yields (statements.foldlM (gatherInside context) ⟨[], []⟩) s fun gathered after =>
      Gleans t₀ gathered after.tree :=
    Yields.foldlM hnone fun _ _ _ _ hgathered => gatherInside_gleans hgathered
  refine Yields.bind (hinside.mono fun gathered first hfirst => ?_)
  exact Yields.read (Yields.foldlM hfirst fun _ _ _ _ hgathered => gatherOutside_gleans hgathered)

/-! ## The pass -/

theorem substitute_inherits (htable : ∀ entry ∈ table, StandsBy t₀ entry.2)
    (h : t₀.Inherits s.tree) :
    Yields (substitute context table scope) s fun _ after => t₀.Inherits after.tree := by
  refine Yields.read (Yields.forM (fun s => t₀.Inherits s.tree) h fun id _ middle hmiddle =>
    Yields.read ?_)
  split
  · exact Yields.pure hmiddle
  refine Yields.bind (Yields.ofExcept fun found hfound => ?_)
  split
  · split
    · obtain ⟨entry, hentry, _, rfl⟩ := CaptureTable.find?_spec hfound
      refine Yields.bind (Yields.edit fun new replaced hreplace => Yields.pure ?_)
      exact hmiddle.replace (htable entry hentry).1 hreplace
    · exact Yields.pure hmiddle
  · exact Yields.pure hmiddle

theorem removeDeclarations_inherits (h : t₀.Inherits s.tree) :
    Yields (removeDeclarations context scope) s fun _ after => t₀.Inherits after.tree := by
  refine Yields.read (Yields.forM (fun s => t₀.Inherits s.tree) h fun id _ middle hmiddle =>
    Yields.read ?_)
  split
  · exact Yields.remove fun removed hremove => hmiddle.remove hremove
  · exact Yields.pure hmiddle

theorem inline_inherits (h : t₀.Inherits s.tree) :
    Yields (inline context capture) s fun _ after => t₀.Inherits after.tree := by
  rw [inline_eq]
  refine Yields.read (Yields.bind ((gather_gleans h).mono fun gathered second hsecond => ?_))
  refine Yields.bind (Yields.edit fun statements spliced hsplice => ?_)
  have hthird := hsecond.inherits.splice hsecond.hoisted hsplice
  refine Yields.bind ((substitute_inherits hsecond.table hthird).mono fun _ fourth hfourth => ?_)
  refine Yields.bind ((removeDeclarations_inherits hfourth).mono fun _ fifth hfifth => ?_)
  refine Yields.bind (Yields.ofExcept fun names _ =>
    Yields.bind (Yields.say fun after hafter => Yields.pure ?_))
  rwa [hafter]

/-- A visit that keeps to the symbols of an earlier tree. -/
def VisitInherits (t₀ : Tree) (visit : NodeId → Pass Unit) : Prop :=
  ∀ s id, t₀.Inherits s.tree → Yields (visit id) s fun _ after => t₀.Inherits after.tree

theorem VisitInherits.forM {visit : NodeId → Pass Unit} (hvisit : VisitInherits t₀ visit)
    (h : t₀.Inherits s.tree) (ids : List NodeId) : Yields (ids.forM visit) s fun _ after =>
    t₀.Inherits after.tree :=
  Yields.forM (fun s => t₀.Inherits s.tree) h fun id _ s hs => hvisit s id hs

theorem VisitInherits.descendTo {visit : NodeId → Pass Unit} (hvisit : VisitInherits t₀ visit)
    (h : t₀.Inherits s.tree) (id : NodeId) (children : List NodeId) :
    Yields (descendTo visit id children) s fun _ after => t₀.Inherits after.tree := by
  refine Yields.forM (fun s => t₀.Inherits s.tree) h fun c _ middle hmiddle => Yields.read ?_
  split
  · exact hvisit middle c hmiddle
  · exact Yields.pure hmiddle

theorem inlineRule_inherits {visit : NodeId → Pass Unit} (hvisit : VisitInherits t₀ visit) :
    VisitInherits t₀ (inlineRule visit) := by
  intro s id h
  have hdescend : Yields (descend visit id) s fun _ after => t₀.Inherits after.tree :=
    Yields.read (hvisit.descendTo h id _)
  refine Yields.read ?_
  simp only
  split
  · refine Yields.bind (Yields.ofExcept fun madeUp _ => ?_)
    split
    · refine Yields.bind (Yields.remove fun removed hremove => Yields.say fun after hafter => ?_)
      rw [hafter]
      exact h.remove hremove
    · exact hdescend
  · split
    · refine Yields.bind (Yields.ofExcept fun found _ => ?_)
      split
      · cases found with
        | none => exact hdescend
        | some context =>
          refine Yields.bind ((inline_inherits h).mono fun statements middle hmiddle => ?_)
          exact hvisit.forM hmiddle statements
      · exact hdescend
    · refine Yields.bind (Yields.pure ?_)
      split
      · exact hdescend
      · exact hdescend
  · exact hdescend

/-- No visit of the pass brings in a symbol that it has not coined. -/
theorem visitWithin_inherits (t₀ : Tree) (depth : Nat) :
    VisitInherits t₀ (visitWithin inlineRule depth) := by
  induction depth with
  | zero => exact fun _ _ _ => Yields.throw
  | succ depth ih => exact inlineRule_inherits ih

/-! ## Contexts -/

theorem contextObject?_spec (h : t.contextObject? statement = .ok (some context)) :
    context.MadeUp ∧ ∃ a, (t.shape a).symbol? = some context := by
  unfold contextObject? at h
  split at h
  · cases h
  split at h
  · rename_i found right hfound _
    obtain ⟨isRecord, _, hresult⟩ := Except.map_eq_ok h
    have heq : found = context := by
      split at hresult
      · exact Option.some.inj hresult
      · cases hresult
    subst heq
    unfold syntheticLocal? at hfound
    split at hfound
    · rename_i name symbol type hleft
      split at hfound
      · rename_i hmade
        cases hfound
        obtain ⟨left, _, hshape⟩ := Option.map_eq_some_iff.mp hleft
        rw [Bool.and_eq_true, beq_iff_eq] at hmade
        exact ⟨⟨hmade.2, hmade.1⟩, left, by rw [hshape]; rfl⟩
      · cases hfound
    · cases hfound
  · cases h

end Closure

/-- The symbols of a document come from its table, one for each key. -/
theorem readDocument_symbolsAgree {value source : Json} {document : Document}
    (h : readDocument value source = .ok document) : document.tree.SymbolsAgree := by
  have hlisted : ∀ a symbol, (document.tree.shape a).symbol? = some symbol → ∃ key,
      symbol.origin = .listed 0 key ∧ document.symbols.find? (fun entry => entry.1 == key) =
      some (key, symbol) := by
    intro a symbol hsymbol
    have hhas : document.tree.Has a := by
      by_contra hnot
      rw [shape, node_of_not_has hnot] at hsymbol
      cases hsymbol
    obtain ⟨key, hfound⟩ := (readDocument_plain h a hhas).1 symbol hsymbol
    exact ⟨key, readDocument_origin h _ (mem_of_find?_eq_some hfound), hfound⟩
  constructor
  · rintro a symbol hsymbol ⟨serial, hcoined, _⟩
    obtain ⟨key, horigin, _⟩ := hlisted a symbol hsymbol
    rw [hcoined] at horigin
    cases horigin
  · intro a b first second hfirst hsecond hsame
    obtain ⟨key, horigin, hfound⟩ := hlisted a first hfirst
    obtain ⟨other, horigin', hfound'⟩ := hlisted b second hsecond
    have hkey : key = other := by simpa [Symbol.isSame, horigin, horigin'] using hsame
    rw [← hkey, hfound] at hfound'
    cases hfound'
    exact ⟨rfl, rfl⟩

end UnitySharp
