import UnitySharp.Proofs.Closure.Symbols
import UnitySharp.Proofs.Convert.Linked

/-!
# Captured variables under their own names

Once a block that created a context has been taken apart, every access to a captured variable that
something stands for is replaced, and the declarations of the context go.  What the block held
besides stays in its order.
-/

namespace UnitySharp

open UnitySharp.Tree Pass List

variable {t : Tree} {a c id new : NodeId} {name : Name} {draft : Draft}

namespace Tree

variable {t' : Tree} {context symbol : Symbol}

theorem kind_of_captured (h : t.capturedName? context a = some name) :
    t.kind a = .memberAccess := by
  obtain ⟨symbol, type, _, hshape, _⟩ := capturedName?_eq_some.mp h
  rw [kind, hshape]
  rfl

theorem children_of_captured (htidy : t.Tidy) (h : t.capturedName? context a = some name)
    (hc : c ∈ t.children a) :
    t.kind c = .reference := by
  obtain ⟨_, _, target, _, _, honly, hreference⟩ := capturedName?_eq_some.mp h
  have hsole : t.children a = t.listed a .target := by
    apply children_of_sole_role (htidy a (has_of_mem_children hc))
    rw [kind_of_captured h]
    rfl
  rw [hsole, listed_of_only? honly, mem_singleton] at hc
  rw [hc]
  exact kind_of_isReferenceTo hreference

theorem kind_of_declares (h : t.declares context c = true) : t.kind c = .declaration := by
  unfold declares at h
  split at h
  · rename_i hshape
    rw [kind, hshape]
    rfl
  · cases h

def IsNameOf (draft : Draft) (symbol : Symbol) : Prop :=
  ∃ name type position, draft = .fresh (.reference name (some symbol) type) position [] ∨
    ∃ given, draft = .typed given (.fresh (.reference name (some symbol) type) position [])

theorem plant_typed_leaf (t : Tree) (up : Option NodeId) (shape : Shape)
    (position : Option Position) (given : Option Ty) :
    plant t up (.typed given (.fresh shape position [])) =
      (.slot t.size, (t.pushNode (bareNode shape position up)).2.update (.slot t.size) fun node =>
        node.withType given) := by
  rw [plant, plant_leaf]
  rfl

theorem plant_name (hdraft : IsNameOf draft symbol) (t : Tree) (up : Option NodeId) :
    (plant t up draft).1 = .slot t.size ∧
      (∃ name type, (plant t up draft).2.shape (.slot t.size) = .reference name (some symbol)
        type) ∧ ∀ a, (plant t up draft).2.Has a ↔ a = .slot t.size ∨ t.Has a := by
  obtain ⟨name, type, position, rfl | ⟨given, rfl⟩⟩ := hdraft
  · rw [plant_leaf]
    exact ⟨rfl, ⟨name, type, congrArg Node.shape (node_pushNode_new t _)⟩, fun a => has_pushNode⟩
  · rw [plant_typed_leaf]
    refine ⟨rfl, ⟨name, given, ?_⟩, fun a => (has_update ..).trans has_pushNode⟩
    have hnode : (t.pushNode (bareNode (.reference name (some symbol) type) position up)).2.node
      (.slot t.size) = _ :=
      node_pushNode_new t _
    rw [shape, node_update_self (has_pushNode.mpr (Or.inl rfl)), hnode]
    rfl

/-- A new name has no children, as its layout has none. -/
theorem isNameOf_of_isNew (h : draft.Refers symbol) (hnew : draft.IsNew) :
    IsNameOf draft symbol := by
  have hlaid := hnew.2 default
  obtain ⟨name, type, position, kids, hdraft⟩ := h
  have hkids : kids = [] := by
    rcases hdraft with rfl | ⟨_, rfl⟩ <;> simp_all [Shape.kind, NodeKind.layout]
  rw [hkids] at hdraft
  exact ⟨name, type, position, hdraft⟩

theorem replace_name (hdraft : IsNameOf draft symbol) (htidy : t.Tidy)
    (h : t.replace id draft = .ok (new, t')) :
    ¬t.Has new ∧ (∃ other type, t'.shape new = .reference other (some symbol) type) ∧
      ∀ a, t'.Has a → a = new ∨ t.Has a := by
  obtain ⟨p, role, _, _, _, hexchanged⟩ := replace_exchanged htidy h
  obtain ⟨hslot, ⟨other, type, hshape⟩, hhas⟩ := plant_name hdraft (t.detachAll [id]) (some p)
  obtain ⟨occupants, hresult, _⟩ := hexchanged.result
  have hplanted : plantAll (t.detachAll [id]) p [draft] =
      ([(plant (t.detachAll [id]) (some p) draft).1],
        (plant (t.detachAll [id]) (some p) draft).2) := rfl
  have hnew := hexchanged.ids_eq
  rw [hplanted, hslot, singleton_inj] at hnew
  rw [hplanted] at hresult
  subst hnew
  refine ⟨fun hbad => Nat.lt_irrefl _ ((has_detachAll t [id] _).mpr hbad), ⟨other, type, ?_⟩,
    fun a ha => ?_⟩
  · rw [hresult, ← hshape]
    exact proj_node_update rfl _
  · rw [hresult, setRole, has_update] at ha
    exact ((hhas a).mp ha).imp_right (has_detachAll t [id] a).mp

end Tree

namespace Closure

variable {s : Session} {u v t₀ : Tree} {context : Symbol} {table : CaptureTable}
  {scope home : NodeId} {done : List NodeId} {f : NodeId → NodeId}

def CaptureTable.Renames (table : CaptureTable) (context : Symbol) : Prop :=
  ∀ name draft, table.find? name = .ok (some draft) → ∃ symbol, IsNameOf draft symbol ∧
    symbol.isSame context = false

/-- A node of the one tree reaches a captured variable through the context, and a node of the other
is a name of what stands for that variable. -/
def StandsUnder (context : Symbol) (table : CaptureTable) (t u : Tree) (access new : NodeId) :
    Prop :=
  ∃ name draft symbol other type, t.capturedName? context access = some name ∧
    table.find? name = .ok (some draft) ∧ IsNameOf draft symbol ∧ symbol.isSame context = false ∧
    u.shape new = .reference other (some symbol) type

/-- After the accesses among some nodes have been replaced.  All of them are if the scope is part of
the tree. -/
structure Substituted (context : Symbol) (table : CaptureTable) (scope : NodeId)
    (done : List NodeId) (f : NodeId → NodeId) (t u : Tree) : Prop where
  renewed : Renewed f t u
  moved : ∀ c, f c ≠ c → c ∈ done ∧ t.parent c ≠ none ∧ StandsUnder context table t u c (f c)
  fresh : ∀ a, u.Has a → t.Has a ∨ u.kind a = .reference
  complete : t.Beneath t.root scope → ∀ c ∈ done, ∀ name draft,
    t.capturedName? context c = some name → table.find? name = .ok (some draft) → f c ≠ c

namespace Substituted

theorem refl (context : Symbol) (table : CaptureTable) (scope : NodeId) (t : Tree) :
    Substituted context table scope [] (fun c => c) t t :=
  ⟨.refl t, fun _ hne => absurd rfl hne, fun _ => Or.inl, by simp⟩

theorem isReferenceTo_image (h : Substituted context table scope done f t u) (hc : t.Standing c) :
    u.isReferenceTo context (f c) = t.isReferenceTo context c := by
  by_cases hfix : f c = c
  · rw [hfix, isReferenceTo, isReferenceTo, h.renewed.shape_eq hc]
  · obtain ⟨_, _, _, _, symbol, _, _, hname, _, _, hother, hshape⟩ := h.moved c hfix
    have hbefore : t.isReferenceTo context c = false := by
      by_contra hbad
      have hkind := kind_of_isReferenceTo (Bool.not_eq_false _ ▸ hbad)
      rw [kind_of_captured hname] at hkind
      cases hkind
    rw [hbefore, isReferenceTo, hshape]
    exact hother

theorem capturedName?_eq (h : Substituted context table scope done f t u) (ha : t.Standing a) :
    u.capturedName? context a = t.capturedName? context a := by
  have htarget : (u.only? a .target).any (u.isReferenceTo context) =
      (t.only? a .target).any (t.isReferenceTo context) := by
    rw [h.renewed.only?_eq ha]
    cases honly : t.only? a .target with
    | none => rfl
    | some target => exact h.isReferenceTo_image (ha.child (mem_children_of_only? honly))
  simp only [capturedName?, h.renewed.shape_eq ha, htarget]

theorem beneath {top : NodeId} (h : Substituted context table scope done f t u) (htidy : t.Tidy)
    (htop : t.Standing top) (hbelow : t.Beneath top c) (hfix : f c = c)
    (hkind : t.kind c ≠ .reference) : u.Beneath top c := by
  induction hbelow with
  | refl => exact Beneath.refl
  | @tail holder low hholder hlow ih =>
    have hholderS := htop.beneath hholder
    have hheld : f holder = holder := by
      by_contra hne
      obtain ⟨_, _, _, _, _, _, _, hname, _⟩ := h.moved holder hne
      exact hkind (children_of_captured htidy hname hlow)
    refine (ih hheld fun hleaf => ?_).tail ?_
    · have hnone := (htidy holder hholderS.has).children_eq_nil (by rw [hleaf]; rfl)
      rw [hnone] at hlow
      cases hlow
    · rw [h.renewed.children_eq hholderS]
      exact mem_map.mpr ⟨low, hlow, hfix⟩

theorem pass (h : Substituted context table scope done f t u)
    (hid : t.Beneath t.root scope → ∀ name draft, t.capturedName? context id = some name →
      table.find? name = .ok (some draft) → f id ≠ id) :
    Substituted context table scope (done ++ [id]) f t u where
  renewed := h.renewed
  moved := fun c hne => ⟨mem_append_left _ (h.moved c hne).1, (h.moved c hne).2⟩
  fresh := h.fresh
  complete := by
    intro hroot c hc
    rcases mem_append.mp hc with hc | hc
    · exact h.complete hroot c hc
    · rw [mem_singleton.mp hc]
      exact hid hroot

theorem replace (h : Substituted context table scope done f t u) (htidy : t.Tidy)
    (hid : t.Standing id) (htable : table.Renames context)
    (hname : t.capturedName? context id = some name) (hfind : table.find? name = .ok (some draft))
    (hreplace : u.replace id draft = .ok (new, v)) :
    Substituted context table scope (done ++ [id]) (fun c => instead id new (f c)) t v := by
  have htidy' := (h.renewed.undisturbed fun _ => False).tidy htidy
  have hidS := h.renewed.standing hid
  obtain ⟨symbol, hdraft, hother⟩ := htable name draft hfind
  obtain ⟨hnew, ⟨other, type, hshape⟩, hhas⟩ := replace_name hdraft htidy' hreplace
  have hlaid : draft.Laid u ∧ draft.parts = [] := by
    obtain ⟨_, _, _, rfl | ⟨_, rfl⟩⟩ := hdraft <;> simp [Shape.kind, NodeKind.layout]
  have hrenewed := replace_renewed htidy' hidS hlaid.1 hlaid.2 hreplace
  obtain ⟨p, hparent, _⟩ := replace_edited htidy' hidS hreplace
  -- What has been replaced before has no parent, so it cannot be replaced again.
  have hfix : f id = id := by
    by_contra hne
    rw [h.renewed.parent_gone hid hne] at hparent
    cases hparent
  have himage : ∀ c, f c ≠ c → t.Has c ∧ instead id new (f c) = f c := by
    intro c hne
    obtain ⟨_, hheld, _⟩ := h.moved c hne
    have hc : t.Has c := by
      by_contra hbad
      exact hheld (by rw [Tree.parent, node_of_not_has hbad]; rfl)
    exact ⟨hc, instead_ne fun heq => h.renewed.image_new hc hne (heq ▸ hid.has)⟩
  have hself : instead id new (f id) = new := by rw [hfix, instead_self]
  refine ⟨h.renewed.trans hrenewed, ?_, ?_, ?_⟩
  · intro c hne
    by_cases hkept : f c = c
    · have heq : c = id := by
        by_contra hbad
        rw [hkept] at hne
        exact hne (instead_ne hbad)
      subst heq
      refine ⟨by simp, ?_, name, draft, symbol, other, type, hname, hfind, hdraft,
        hother, by rwa [hself]⟩
      rw [← h.renewed.parent_kept hid hfix, hparent]
      simp
    · obtain ⟨hmem, hheld, name', draft', symbol', other', type', hname', hfind', hdraft', hother',
        hshape'⟩ :=
        h.moved c hkept
      obtain ⟨hc, hsame⟩ := himage c hkept
      refine ⟨mem_append_left _ hmem, hheld, name', draft', symbol', other', type', hname', hfind',
        hdraft', hother', ?_⟩
      rw [hsame, hrenewed.shape_eq (h.renewed.new c hc hkept).1, hshape']
  · intro a ha
    rcases hhas a ha with rfl | hold
    · exact Or.inr (by rw [kind, hshape]; rfl)
    · refine (h.fresh a hold).imp_right fun hkind => ?_
      rw [(hrenewed.undisturbed fun _ => False).keeps.kind_eq a hold, hkind]
  · intro hroot c hc name' draft' hname' hfind'
    rcases mem_append.mp hc with hc | hc
    · have hne := h.complete hroot c hc name' draft' hname' hfind'
      rwa [(himage c hne).2]
    · rw [mem_singleton.mp hc, hself]
      exact fun heq => hnew (heq ▸ hidS.has)

end Substituted

/-- One walk replaces every access in the scope to which the table has an answer, unless the scope
is cut out. -/
theorem substitute_run (hsound : s.tree.Sound) (hscope : s.tree.Standing scope)
    (htable : table.Renames context) :
    Yields (substitute context table scope) s fun _ after =>
      ∃ f, Substituted context table scope (s.tree.walk scope) f s.tree after.tree := by
  refine Yields.read ?_
  refine Yields.forM_along (fun done after => ∃ f,
    Substituted context table scope done f s.tree after.tree) ⟨_, .refl ..⟩ ?_
  rintro done id rest hsplit middle ⟨f, h⟩
  have hbelow : s.tree.Beneath scope id := beneath_of_mem_walk (by simp [hsplit])
  have hid := hscope.beneath hbelow
  refine Yields.read ?_
  rw [h.capturedName?_eq hid]
  split
  · rename_i hnone
    exact Yields.pure ⟨f, h.pass fun _ _ _ hname => by rw [hnone] at hname; cases hname⟩
  rename_i name hname
  refine Yields.bind (Yields.ofExcept fun found hfound => ?_)
  split
  · rename_i draft
    split
    · refine Yields.bind (Yields.edit fun new replaced hreplace => Yields.pure ?_)
      exact ⟨_, h.replace hsound.tidy hid htable hname hfound hreplace⟩
    · -- An access that is not part of the tree has been cut out, unless the scope itself is not.
      rename_i hdetached
      refine Yields.pure ⟨f, h.pass fun hroot _ _ _ _ hfix => hdetached ?_⟩
      have hspared := h.renewed.undisturbed fun _ => False
      refine (hsound.of_spared hspared fun hfalse => hfalse).isAttached ?_
      rw [hspared.keeps.root_eq]
      refine h.beneath hsound.tidy hsound.standing (hroot.trans hbelow) hfix ?_
      rw [kind_of_captured hname]
      simp
  · refine Yields.pure ⟨f, h.pass fun _ name' draft hname' hfind => ?_⟩
    rw [hname] at hname'
    cases hname'
    rw [hfound] at hfind
    cases hfind

/-- A scope from one tree, in which a context is still used, to another in which it has been done
away with.  Nodes are replaced by what stands for captured variables and nothing else happens to the
lists of children, except that the declarations of the context go.  If the scope is part of the
tree, no access to a variable of the table is left. -/
structure Cleared (context : Symbol) (table : CaptureTable) (scope : NodeId) (f : NodeId → NodeId)
    (t v : Tree) :
    Prop where
  replaced : ∀ id, f id ≠ id → t.Beneath scope id ∧ StandsUnder context table t v id (f id)
  listed : ∀ id role, t.Beneath scope id → f id = id →
    v.listed id role = ((t.listed id role).filter fun c => !t.declares context c).map f
  undeclared : ∀ id, v.Beneath scope id → v.declares context id = false
  everywhere : t.Beneath t.root scope → ∀ id name draft, t.Beneath scope id →
    t.capturedName? context id = some name → table.find? name = .ok (some draft) → f id ≠ id
  absent : t.Beneath t.root scope → ∀ id name draft, v.Beneath scope id →
    v.capturedName? context id = some name → table.find? name ≠ .ok (some draft)

namespace Substituted

theorem declares_image (h : Substituted context table scope done f t u) (hc : t.Standing c) :
    u.declares context (f c) = t.declares context c := by
  by_cases hfix : f c = c
  · rw [hfix, declares, declares, h.renewed.shape_eq hc]
  · obtain ⟨_, _, _, _, _, _, _, hname, _, _, _, hshape⟩ := h.moved c hfix
    have hbefore : t.declares context c = false := by
      by_contra hbad
      have hkind := kind_of_declares (Bool.not_eq_false _ ▸ hbad)
      rw [kind_of_captured hname] at hkind
      cases hkind
    rw [hbefore, declares, hshape]

theorem listed_image (h : Substituted context table scope done f t u) (ha : t.Standing a)
    (role : Role) :
    u.listed a role = (t.listed a role).map f := by
  simp only [Tree.listed, Node.kidList, Node.kid, h.renewed.kids_eq ha, kidsAt_mapKids,
    Occupants.toList_map]

/-- Once the accesses have been replaced and the declarations of the context taken away, the scope
is clear of it. -/
theorem cleared (h : Substituted context table scope (t.walk scope) f t u)
    (hpruned : Pruned (fun c => (u.walk scope).contains c && u.declares context c) u v)
    (htidy : t.Tidy)
    (hscope : t.Standing scope) (hkind : t.parent scope = none ∨ (t.kind scope).isMethod = true) :
    Cleared context table scope f t v := by
  have hscope' := h.renewed.standing hscope
  have hback : ∀ {c}, v.Beneath scope c → u.Beneath scope c := fun hbelow =>
    Spared.beneath_of_undisturbed hpruned.undisturbed hscope'
      (hpruned.has _ ((hpruned.standing hscope').beneath hbelow).has) hbelow
  have hwalk : ∀ {c}, u.Beneath scope c → (u.walk scope).contains c = true := fun hbelow =>
    contains_iff_mem.mpr (mem_walk_of_beneath hscope'.intact.shallow hbelow)
  constructor
  · intro id hne
    obtain ⟨hmem, _, name, draft, symbol, other, type, hname, hfind, hdraft, hother, hshape⟩ :=
      h.moved id hne
    exact ⟨beneath_of_mem_walk hmem, name, draft, symbol, other, type, hname, hfind, hdraft, hother,
      (hpruned.shape_eq _).trans hshape⟩
  · intro id role hbelow hfix
    have hid := hscope.beneath hbelow
    rw [hpruned.listed id (h.renewed.standing hid), h.listed_image hid, filter_map]
    refine congrArg _ (filter_congr fun c hc => ?_)
    have hchild := (t.listed_sublist id role).subset hc
    have himage : u.Beneath scope (f c) := by
      refine (h.beneath htidy hscope hbelow hfix fun hleaf => ?_).tail ?_
      · rw [(htidy id hid.has).children_eq_nil (by rw [hleaf]; rfl)] at hchild
        cases hchild
      · rw [h.renewed.children_eq hid]
        exact mem_map_of_mem hchild
    simp only [Function.comp_apply, hwalk himage, Bool.true_and,
      h.declares_image (hid.child hchild)]
  · intro id hbelow
    have hkept : ((u.walk scope).contains scope && u.declares context scope) = false ∨
      u.parent scope = none := by
      rcases hkind with hnone | hmethod
      · exact Or.inr ((h.renewed.undisturbed fun _ => False).top scope hscope (fun hfalse => hfalse)
          hnone)
      · refine Or.inl (Bool.and_eq_false_iff.mpr (Or.inr (Bool.eq_false_iff.mpr fun hbad => ?_)))
        rw [← h.renewed.kind_eq hscope, kind_of_declares hbad] at hmethod
        cases hmethod
    have hdrop := hpruned.kept_of_beneath hscope' hkept hbelow
    rw [hwalk (hback hbelow), Bool.true_and] at hdrop
    rw [declares, hpruned.shape_eq, ← declares, hdrop]
  · intro hroot id name draft hbelow
    exact h.complete hroot id (mem_walk_of_beneath hscope.intact.shallow hbelow) name draft
  · intro hroot id name draft hbelow hname hfind
    have hname' := hpruned.capturedName? hname
    have hbelow' := hback hbelow
    have hold : t.Has id := by
      refine (h.fresh id (hscope'.beneath hbelow').has).resolve_right fun hbad => ?_
      rw [kind_of_captured hname'] at hbad
      cases hbad
    have hbefore := h.renewed.beneath_back hscope hold hbelow'
    have hid := hscope.beneath hbefore
    rw [h.capturedName?_eq hid] at hname'
    -- An access that has been replaced has no parent, so it could be in the scope only as the scope
    -- itself.
    have hne := h.complete hroot id (mem_walk_of_beneath hscope.intact.shallow hbefore) name draft
      hname' hfind
    have heq := hscope'.intact.eq_of_parent_none hbelow' (h.renewed.parent_gone hid hne)
    subst heq
    rcases hkind with hnone | hmethod
    · exact (h.moved id hne).2.1 hnone
    · rw [kind_of_captured hname'] at hmethod
      cases hmethod

theorem listed_pruned {drop : NodeId → Bool} (h : Substituted context table scope done f t u)
    (hpruned : Pruned drop u v) (ha : t.Standing a) (role : Role) :
    v.listed a role = ((t.listed a role).map f).filter fun c => !drop c := by
  rw [hpruned.listed a (h.renewed.standing ha), h.listed_image ha]

end Substituted

/-! ## The whole rewriting -/

structure Creates (t : Tree) (capture home : NodeId) (context : Symbol) : Prop where
  block : t.kind capture = .block
  parent : t.parent capture = some home
  homeBlock : t.kind home = .block
  first : ∃ first, (t.listed capture .statements).head? = some first ∧
    t.contextObject? first = .ok (some context)

/-- Whether the pass goes on to the children of a node, which is neither a made-up class nor a block
that creates a context. -/
def goesDown (t : Tree) (id : NodeId) : Bool :=
  match t.shape id with
  | .typeDef name _ _ _ _ => (isMadeUp t id name matches .ok false)
  | .block => !((t.parent id).any fun parent => t.kind parent == .block) ||
      (t.listed id .statements).head?.all fun first => (t.contextObject? first matches .ok none)
  | _ => true

/-- The visits of the pass.  It starts at the root and goes on to the children of a node, or to what
takes the place of a block that creates a context, to each one after those before it. -/
inductive Comes (s₀ : Session) : Session → NodeId → Prop where
  | root : Comes s₀ s₀ s₀.tree.root
  | child {s s' : Session} {id c : NodeId} {before rest : List NodeId} {depth : Nat}
      (h : Comes s₀ s id) (hdown : goesDown s.tree id = true)
      (hchildren : s.tree.children id = before ++ c :: rest)
      (hbefore : Pass.descendTo (Pass.visitWithin inlineRule depth) id before s = .ok () s')
      (hparent : s'.tree.parent c = some id) : Comes s₀ s' c
  | statement {s middle s' : Session} {id home c : NodeId} {before rest : List NodeId}
      {context : Symbol} {depth : Nat} (h : Comes s₀ s id)
      (hcreates : Creates s.tree id home context)
      (hinline : inline context id s = .ok (before ++ c :: rest) middle)
      (hbefore : before.forM (Pass.visitWithin inlineRule depth) middle = .ok () s') : Comes s₀ s' c

/-- Wherever the pass comes, the tree is sound, the node stands in it, and no symbol is foreign. -/
theorem Comes.good {s₀ : Session} (hsound : s₀.tree.Sound) (h : Comes s₀ s id) :
    s.tree.Sound ∧ s.tree.Standing id ∧ s₀.tree.Inherits s.tree := by
  have hvisits : ∀ depth, VisitsOn Sound Reach (visitWithin inlineRule depth) :=
    visitWithin_visits fun _ => inlineRule_visits
  have hinherits := visitWithin_inherits s₀.tree
  induction h with
  | root => exact ⟨hsound, hsound.standing, .refl _⟩
  | @child s s' id c before rest depth hcomes hdown hchildren hbefore hparent ih =>
    obtain ⟨hs, hid, hinherit⟩ := ih
    have hall : ∀ other ∈ before, other ∈ s.tree.children id := fun other hother => by
      simp [hchildren, hother]
    have hspared := descendTo_yields (hvisits depth) local_reach hs hid hall () s' hbefore
    have hlisted := mem_children_of_parent hid hspared (by simp [hchildren]) hparent
    exact ⟨Steady.after_within hs hid hspared, (hid.of_within hspared).child hlisted,
      (hinherits depth).descendTo hinherit id before () s' hbefore⟩
  | @statement s middle s' id home c before rest context depth hcomes hcreates hinline hbefore ih =>
    obtain ⟨hs, hid, hinherit⟩ := ih
    have hunpacked := inline_yields hs ⟨hid, hcreates.block, hcreates.parent, hcreates.homeBlock⟩ _
      _ hinline
    have hmiddle := hs.of_spared hunpacked.spared fun hreach => hreach.2 hs.top
    have haside := pairwise_append.mp hunpacked.aside
    have hall : ∀ other ∈ before, middle.tree.Standing other := fun other hother =>
      hunpacked.standing other (by simp [hother])
    have hspared := forM_yields (fun statement => statement) hmiddle hall haside.1
      (fun statement _ session hground hstanding =>
        hvisits depth session statement hground hstanding) () s' hbefore
    -- The statements stand beside each other, so the visits to those before do not reach this one.
    refine ⟨hmiddle.of_spared hspared ?_, hspared.standing c (hunpacked.standing c (by simp)) ?_,
      (hinherits depth).forM (inline_inherits hinherit _ _ hinline) before () s' hbefore⟩
    · rintro ⟨statement, _, hreach⟩
      exact hreach.2 hmiddle.top
    · rintro ⟨statement, hstatement, hreach⟩
      exact (haside.2.2 statement hstatement c (by simp)).1 hreach.1

theorem CaptureTable.Renames.of_entries (h : ∀ entry ∈ table, StandsBy t₀ entry.2)
    (hnew : table.New) (hagree : t₀.SymbolsAgree) (hcontext : t₀.Source context)
    (hmade : context.MadeUp) : table.Renames context := by
  intro name draft hfind
  obtain ⟨entry, hentry, _, rfl⟩ := CaptureTable.find?_spec hfind
  obtain ⟨_, symbol, hdraft, hplain, hsource⟩ := h entry hentry
  exact ⟨symbol, isNameOf_of_isNew hdraft (hnew entry hentry),
    hcontext.not_isSame hagree hmade hsource hplain⟩

/-- What stands beside a block once the block has been taken apart and its context is gone.  The
statements there were are still there, as what took their place, except for copies into the context
and its declarations. -/
structure Neighbours (context : Symbol) (s unpacked : Tree) (f : NodeId → NodeId)
    (ids : List NodeId) (survives : NodeId → Option NodeId) : Prop where
  stays : ∀ a ∈ ids, survives a = some (f a) ∨ (s.capturedCopy? context a).isSome = true ∨
    unpacked.declares context a = true
  image : ∀ a ∈ ids, ∀ b, survives a = some b → b = f a ∨ ¬s.Has b

theorem Shifts.split {second : Tree} {capture : NodeId} {shift : NodeId → Option NodeId}
    {before later : List NodeId} (h : Shifts context home t second shift) (hcapture : t.Has capture)
    (hhome : second.Standing home)
    (hlisted : second.listed home .statements = before ++ [capture] ++ later) :
    ∃ early late, t.listed home .statements = early ++ capture :: late ∧
      before = early.filterMap shift ∧ later = late.filterMap shift := by
  have hmem : capture ∈ second.listed home .statements := by simp [hlisted]
  rw [h.listed] at hmem
  obtain ⟨a, ha, hshift⟩ := mem_filterMap.mp hmem
  have hsame : capture = a := (h.image a ha capture hshift).resolve_right fun hnew => hnew hcapture
  subst hsame
  obtain ⟨early, late, hsplit⟩ := append_of_mem ha
  have hnodup := hhome.intact.nodup.sublist (second.listed_sublist home .statements)
  have hboth := hlisted
  rw [h.listed, hsplit, filterMap_append, filterMap_cons_some hshift, append_assoc,
    singleton_append] at hboth
  rw [h.listed, hsplit, filterMap_append, filterMap_cons_some hshift, nodup_middle, nodup_cons,
    mem_append, not_or] at hnodup
  obtain ⟨hbefore, _, hlater⟩ := (append_cons_inj_of_notMem hnodup.1.1 hnodup.1.2).mp hboth
  exact ⟨early, late, hsplit, hbefore.symm, hlater.symm⟩

theorem Substituted.inPlace {second w : Tree} {drop : NodeId → Bool}
    {shift : NodeId → Option NodeId} {early late statements kept : List NodeId}
    (h : Substituted context table scope done f t u) (hpruned : Pruned drop u v)
    (hhome : t.Standing home) (hshift : Shifts context home w second shift)
    (hgrown : ∀ a, w.Has a → t.Has a)
    (hlisted : t.listed home .statements = early.filterMap shift ++ statements ++
      late.filterMap shift) (hids : ∀ a ∈ early ++ late, a ∈ w.listed home .statements)
    (hkept : kept.Sublist statements) (hdrop : ∀ c, drop c = true → u.declares context c = true) :
    ∃ survives middle,
      v.listed home .statements = early.filterMap survives ++ middle ++ late.filterMap survives ∧
      ((kept.filter fun c => !t.declares context c).map f).Sublist middle ∧
      Neighbours context w t f (early ++ late) survives := by
  let left := Option.guard fun c => !drop c
  have hstanding : ∀ {c}, c ∈ t.listed home .statements → t.Standing c := fun hc =>
    hhome.child ((t.listed_sublist home .statements).subset hc)
  have hleft : ∀ {c}, t.Standing c → t.declares context c = false → left (f c) = some (f c) := by
    intro c hc hother
    have hfree : drop (f c) ≠ true := fun hbad => by
      rw [← h.declares_image hc, hdrop _ hbad] at hother
      cases hother
    simp [left, hfree]
  have hshifted : ∀ {a b}, a ∈ early ++ late → shift a = some b →
    b ∈ t.listed home .statements := by
    intro a b ha hb
    rw [hlisted]
    rcases mem_append.mp ha with ha | ha
    · simp [mem_filterMap.mpr ⟨a, ha, hb⟩]
    · simp [mem_filterMap.mpr ⟨a, ha, hb⟩]
  refine ⟨fun a => (shift a).bind (left ∘ f), (statements.map f).filter fun c => !drop c, ?_, ?_,
    fun a ha => ?_, fun a ha b hb => ?_⟩
  · rw [h.listed_pruned hpruned hhome, hlisted, map_append, map_append, filter_append,
      filter_append, ← filterMap_filterMap, ← filterMap_filterMap, ← filterMap_map, ← filterMap_map,
      filterMap_eq_filter]
  · have hself : (kept.filter fun c => !t.declares context c).map f =
        (kept.filter fun c => !t.declares context c).filterMap (left ∘ f) := by
      rw [← filterMap_eq_map']
      refine filterMap_congr fun c hc => ?_
      obtain ⟨hc, hother⟩ := mem_filter.mp hc
      exact (hleft (hstanding (by simp [hlisted, hkept.subset hc])) (by simpa using hother)).symm
    rw [hself, ← filterMap_eq_filter (p := fun c => !drop c), filterMap_map]
    exact (filter_sublist.trans hkept).filterMap _
  · rcases hshift.stays a (hids a ha) with hsame | hcopy
    · cases hdeclares : t.declares context a with
      | true => exact Or.inr (Or.inr rfl)
      | false =>
        refine Or.inl ?_
        rw [hsame]
        exact hleft (hstanding (hshifted ha hsame)) hdeclares
    · exact Or.inr (Or.inl hcopy)
  · obtain ⟨c, hc, hcb⟩ := Option.bind_eq_some_iff.mp hb
    have hguard : left (f c) = some b := hcb
    obtain rfl : f c = b := (Option.guard_eq_some_iff.mp hguard).1
    by_cases hfix : f c = c
    · exact (hshift.image a (hids a ha) c hc).imp (fun heq => by rw [heq]) fun hnew => by rwa [hfix]
    · exact Or.inr fun hbad => h.renewed.image_new (hstanding (hshifted ha hc)).has hfix
        (hgrown _ hbad)

/-- Doing away with a context is uniform, wherever the pass does it.  What has been gathered takes
the place of the block; after that the scope is cleared of the context.  What the block held besides
stands, in its order, between what has become of the statements before the block and what has become
of those after it. -/
theorem inline_clears {s₀ : Session} {capture home : NodeId} {statements : List NodeId}
    {after : Session} (hsound₀ : s₀.tree.Sound) (hagree : s₀.tree.SymbolsAgree)
    (hcomes : Comes s₀ s capture) (h : Creates s.tree capture home context)
    (hrun : inline context capture s = .ok statements after) :
    let scope := (s.tree.ancestor? NodeKind.isMethod capture).getD s.tree.root
    ∃ gathered second unpacked f,
      gather context capture scope (some home) (s.tree.listed capture .statements).tail s =
        .ok gathered second ∧
      Pass.splice capture gathered.hoisted second = .ok statements unpacked ∧
      Cleared context gathered.table scope f unpacked.tree after.tree ∧
      ∃ early late survives middle, s.tree.listed home .statements = early ++ capture :: late ∧
        after.tree.listed home .statements = early.filterMap survives ++ middle ++
          late.filterMap survives ∧
        (((statementsKept context s.tree (s.tree.listed capture .statements).tail).filter fun c =>
          !unpacked.tree.declares context c).map f).Sublist middle ∧
        Neighbours context s.tree unpacked.tree f (early ++ late) survives := by
  intro scope
  have hparent := h.parent
  obtain ⟨hsound, hcapture, hinherit⟩ := hcomes.good hsound₀
  obtain ⟨first, _, hcontext⟩ := h.first
  obtain ⟨hmade, a, ha⟩ := contextObject?_spec hcontext
  have hhoused : Housed s.tree capture home := ⟨hcapture, h.block, hparent, h.homeBlock⟩
  obtain ⟨hscope, hfree, hplace⟩ := scope_standing hsound hcapture h.block rfl
  obtain ⟨hhomeS, hcaptureIn⟩ := hcapture.of_parent hparent
  have hsub : (s.tree.listed capture .statements).tail.Sublist (s.tree.children capture) :=
    (tail_sublist _).trans (s.tree.listed_sublist capture .statements)
  revert statements after
  change Yields _ _ _
  rw [inline_eq]
  refine Yields.read ?_
  rw [hparent]
  refine Yields.bind fun gathered second hgather => ?_
  obtain ⟨hgathering, hkept, halong⟩ :=
    gather_yields hsound.tidy hhoused hscope hsub gathered second hgather
  have htable : gathered.table.Renames context :=
    .of_entries (gather_gleans hinherit gathered second hgather).table hgathering.table hagree
      (hinherit.symbol a context ha) hmade
  refine Yields.bind fun statements unpacked hsplice => ?_
  obtain ⟨hunpacked, before, later, hbefore, hlisted, hmoved⟩ :=
    hgathering.splice_yields hsound.tidy hhoused statements unpacked hsplice
  have hsound' := hsound.of_spared hunpacked.spared fun hreach => hreach.2 hsound.top
  have hscopeS := hunpacked.spared.standing _ hscope hfree
  have hhome' := hunpacked.spared.standing _ hhomeS fun hreach =>
    hhomeS.intact.not_beneath_of_child hcaptureIn hreach.1
  refine Yields.bind ((substitute_run hsound' hscopeS htable).mono ?_)
  rintro _ substituted ⟨f, hf⟩
  have htidy := (hf.renewed.undisturbed fun _ => False).tidy hsound'.tidy
  refine Yields.bind ((removeDeclarations_yields htidy (hf.renewed.standing hscopeS)).mono
    fun _ removed hpruned => ?_)
  refine Yields.bind (Yields.ofExcept fun names _ => ?_)
  refine Yields.bind (Yields.say fun after hafter => Yields.pure ?_)
  rw [hafter]
  have hkind : unpacked.tree.parent scope = none ∨ (unpacked.tree.kind scope).isMethod = true :=
    hplace.imp (hunpacked.spared.top _ hscope hfree) fun hmethod => by
      rwa [hunpacked.spared.keeps.kind_eq _ hscope.has]
  obtain ⟨shift, hshift⟩ := halong.shifted
  obtain ⟨early, late, hsplit, rfl, rfl⟩ :=
    hshift.split hcapture.has (hhomeS.of_undisturbed halong.undisturbed) hbefore
  obtain ⟨survives, middle, hplaced⟩ :=
    hf.inPlace hpruned hhome' hshift (fun a ha => hunpacked.spared.keeps.has ha)
    hlisted (fun a ha => by simpa [hsplit] using Or.imp_right Or.inr (mem_append.mp ha))
      (hkept.trans hmoved)
    fun c hc => (Bool.and_eq_true_iff.mp hc).2
  exact ⟨gathered, second, unpacked, f, hgather, hsplice,
    hf.cleared hpruned hsound'.tidy hscopeS hkind, early, late, survives, middle, hsplit, hplaced⟩

/-! ## Samples -/

def firstBelow (t : Tree) : Nat → Option NodeId
  | 0 => some t.root
  | depth + 1 => ((firstBelow t depth).filter (goesDown t)).bind fun id => (t.children id).head?

theorem Comes.firstBelow (hsound : s.tree.Sound) : ∀ {depth : Nat} {id : NodeId},
    firstBelow s.tree depth = some id → Comes s s id
  | 0, _, h => Option.some.inj h ▸ .root
  | depth + 1, c, h => by
      obtain ⟨id, hfound, hc⟩ := Option.bind_eq_some_iff.mp h
      obtain ⟨hid, hdown⟩ := Option.filter_eq_some_iff.mp hfound
      obtain ⟨rest, hrest⟩ := head?_eq_some_iff.mp hc
      have hcomes := Comes.firstBelow hsound hid
      obtain ⟨_, hstanding, _⟩ := hcomes.good hsound
      have hparent := hstanding.intact.parent_child (mem_of_mem_head? hc)
      exact @Comes.child s s s id c [] rest 0 hcomes hdown hrest rfl hparent

def createdContext? (t : Tree) (capture : NodeId) : Option Symbol :=
  match (t.listed capture .statements).head?.map t.contextObject? with
  | some (.ok (some context)) => some context
  | _ => none

theorem inline_clears_captureSample : ∃ document capture home context statements after,
    readDocument Json.captureSample .null = .ok document ∧
      Creates document.tree capture home context ∧
        inline context capture ⟨document.tree, .ofVerbosity 0 none⟩ = .ok statements after ∧
        ∃ table scope f unpacked, Cleared context table scope f unpacked after.tree := by
  obtain ⟨document, hread, h⟩ := Json.exists_of_holds (show Json.captureSample.holds (fun t =>
    (firstBelow t 4).any fun capture => t.kind capture == .block && (t.parent capture).any
      (t.kind · == .block) && (createdContext? t capture).any fun context =>
        (Session.mk t (.ofVerbosity 0 none)).runsTo (inline context capture) fun _ _ =>
          true) = true by decide +kernel)
  simp only [Option.any_eq_true, Bool.and_eq_true, beq_iff_eq] at h
  obtain ⟨capture, hcapture, ⟨hblock, home, hparent, hhome⟩, context, hcontext, h⟩ := h
  unfold createdContext? at hcontext
  split at hcontext
  · rename_i found hfound
    cases hcontext
    obtain ⟨statements, after, hrun, _⟩ := Session.exists_of_runsTo h
    have hcreates : Creates document.tree capture home context :=
      ⟨hblock, hparent, hhome, Option.map_eq_some_iff.mp hfound⟩
    have hsound := readDocument_sound hread
    have hagree := readDocument_symbolsAgree hread
    obtain ⟨gathered, _, unpacked, f, _, _, hcleared, _⟩ :=
      inline_clears hsound hagree (Comes.firstBelow hsound hcapture) hcreates hrun
    exact ⟨document, capture, home, context, statements, after, hread, hcreates, hrun, _, _, f, _,
      hcleared⟩
  · cases hcontext

def leavesAccess (capture : NodeId) : Pass Bool := do
  let s ← get
  match (s.tree.listed capture .statements).head?.map s.tree.contextObject? with
  | some (.ok (some context)) =>
    let scope := (s.tree.ancestor? NodeKind.isMethod capture).getD s.tree.root
    let gathered ← gather context capture scope (s.tree.parent capture)
      (s.tree.listed capture .statements).tail
    set s
    let _ ← inline context capture
    let t ← Pass.tree
    return (t.walk scope).any fun id =>
      ((t.capturedName? context id).map gathered.table.find? matches some (.ok (some _)))
  | _ => throw .unfit

end Closure

/-- `{ $l = new $A(); int $l = N; }`, where `N` is a method with the body
`{ $m = new $B(); $m.$y = 2; } return $m.$y;`. -/
def Json.detachedSample : Json :=
  let name (text : String) (key : Int) :=
    nodeOf "Reference" [("name", .text text), ("symbol", .int key)]
  let assign (left right : Json) := nodeOf "ExpressionStatement" [("expr",
    nodeOf "BinaryOp" [("op", .text "="), ("left", left), ("right", right)])]
  let create (text : String) (key : Int) := nodeOf "Invocation" [("target", name text key)]
  let block (statements : List Json) := nodeOf "Block" [("statements", .list statements)]
  let captured := nodeOf "MemberAccess" [("target", name "$m" 3), ("name", .text "$y")]
  let madeUp (text : String) :=
    Json.record [("kind", .text "Local"), ("name", .text text), ("synthetic", .bool true)]
  let constructor (text : String) :=
    Json.record [("kind", .text "Constructor"), ("name", .text text)]
  let inner := block [
    block [assign (name "$m" 3) (create "$B" 4),
      assign captured (nodeOf "Literal" [("value", .int 2)])],
    nodeOf "Return" [("expr", captured)]]
  methodDocument
    [("1", madeUp "$l"), ("2", constructor "$A"), ("3", madeUp "$m"), ("4", constructor "$B")]
    [block [assign (name "$l" 1) (create "$A" 2),
      nodeOf "Declaration" [("name", .text "$l"), ("symbol", .int 1),
        ("type_ref", nodeOf "TypeRef" [("type", .text "int")]),
        ("initializer", nodeOf "Method" [("name", .text "N"), ("body", inner)])]]]

/-- The method of the sample goes with the declaration of the outer context.  When its own block is
rewritten, it is not part of the tree any more, and its access to the captured variable is left. -/
theorem Closure.leavesAccess_detachedSample : (match readDocument Json.detachedSample .null with
    | .error _ => false
    | .ok document =>
      match (leavesAccess (.slot 4) >>= fun _ => leavesAccess (.slot 14)) ⟨document.tree,
        .ofVerbosity 0 none⟩ with
      | .ok left _ => left
      | .error _ _ => false) = true := by
  decide +kernel

end UnitySharp
