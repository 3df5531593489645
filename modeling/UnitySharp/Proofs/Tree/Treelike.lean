import UnitySharp.Proofs.Tree.Spared

/-!
# Subtrees without sharing

A node is treelike if nothing is beneath it twice.  Nothing is asked of the links to parents, and
some of the nodes may be loose: planting gives slots to those and links all of them anew.  The parts
that a draft takes over from the tree are ready if they are treelike and no two of them overlap.
-/

namespace UnitySharp.Tree

open List

variable {t u : Tree} {a b c id top : NodeId} {ids : List NodeId}

def Apart (t : Tree) (a b : NodeId) : Prop :=
  ∀ c, t.Beneath a c → ¬t.Beneath b c

/-- The subtree of a node is finite, and nothing is beneath the node in two ways. -/
inductive Treelike (t : Tree) : NodeId → Prop where
  | intro {id : NodeId} (has : t.Has id) (apart : (t.children id).Pairwise t.Apart)
      (below : ∀ child ∈ t.children id, Treelike t child) : Treelike t id

theorem nodup_of_apart (h : ids.Pairwise t.Apart) : ids.Nodup := by
  refine h.imp ?_
  intro a b hapart heq
  exact hapart a Beneath.refl (heq ▸ Beneath.refl)

namespace Treelike

theorem has (h : t.Treelike id) : t.Has id := by
  cases h with
  | intro hhas _ _ => exact hhas

theorem apart (h : t.Treelike id) : (t.children id).Pairwise t.Apart := by
  cases h with
  | intro _ hapart _ => exact hapart

theorem child (h : t.Treelike id) (hchild : c ∈ t.children id) : t.Treelike c := by
  cases h with
  | intro _ _ hbelow => exact hbelow c hchild

theorem beneath (h : t.Treelike top) (hbelow : t.Beneath top id) : t.Treelike id := by
  induction hbelow with
  | refl => exact h
  | tail _ hchild ih => exact ih.child hchild

theorem not_beneath_of_child (h : t.Treelike id) (hchild : c ∈ t.children id) :
    ¬t.Beneath c id := by
  induction h generalizing c with
  | @intro id _ _ _ ih =>
    -- A cycle through `id` passes through the child, where the induction hypothesis excludes it.
    intro hcycle
    rcases hcycle.eq_or_child with heq | ⟨low, hlow, hbelow⟩
    · subst heq
      exact ih id hchild hchild Beneath.refl
    · exact ih c hchild hlow (hbelow.tail hchild)

theorem transfer (h : t.Treelike id) (hhas : ∀ a, t.Has a → u.Has a)
    (hchildren : ∀ a, t.Beneath id a → u.children a = t.children a) : u.Treelike id := by
  induction h with
  | @intro id hself hapart hbelow ih =>
    have hsame : u.children id = t.children id := hchildren id Beneath.refl
    have hsub : ∀ c ∈ t.children id, ∀ a, t.Beneath c a → u.children a = t.children a :=
      fun c hc a ha => hchildren a (ha.below_child hc)
    refine .intro (hhas id hself) ?_ ?_
    · rw [hsame]
      refine hapart.imp_of_mem ?_
      intro a b ha hb hab c hac hbc
      exact hab c (hac.of_transfer (hsub a ha)) (hbc.of_transfer (hsub b hb))
    · intro c hc
      rw [hsame] at hc
      exact ih c hc (hsub c hc)

end Treelike

theorem Intact.treelike (h : t.Intact id) : t.Treelike id := by
  induction h with
  | @intro id hslot hnodup hheld hbelow ih =>
    have hintact : t.Intact id := .intro hslot hnodup hheld hbelow
    refine .intro hslot.has ?_ ih
    refine hnodup.imp_of_mem ?_
    intro a b ha hb hne c hac
    exact hintact.siblings_apart ha hb hne hac

/-! ## Depth -/

theorem Shallow.transfer {depth : Nat} (h : t.Shallow depth id)
    (hchildren : ∀ a, t.Beneath id a → u.children a = t.children a) : u.Shallow depth id := by
  induction depth generalizing id with
  | zero => exact h.elim
  | succ depth ih =>
    intro c hc
    rw [hchildren id Beneath.refl] at hc
    exact ih (h c hc) fun a ha => hchildren a (ha.below_child hc)

theorem Treelike.shallow_below {P : NodeId → Prop} {bound : Nat} {path : List NodeId}
    (h : t.Treelike id) (hbound : ∀ ids : List NodeId, ids.Nodup → (∀ a ∈ ids, P a) →
      ids.length ≤ bound) (hbelow : ∀ a, t.Beneath id a → P a) (hnodup : path.Nodup)
    (hpath : ∀ a ∈ path, P a) (habove : ∀ a ∈ path, ¬t.Beneath id a) (depth : Nat)
    (hdepth : bound < path.length + depth) :
    t.Shallow depth id := by
  induction depth generalizing path id with
  | zero => exact absurd (hbound path hnodup hpath) (by omega)
  | succ depth ih =>
    intro c hc
    have hself : id ∉ path := fun hmem => habove id hmem Beneath.refl
    have hpath' : (id :: path).Nodup := nodup_cons.mpr ⟨hself, hnodup⟩
    refine ih (h.child hc) ?_ hpath' ?_ ?_ ?_
    · exact fun a ha => hbelow a (ha.below_child hc)
    · intro a ha
      rcases mem_cons.mp ha with rfl | ha
      · exact hbelow a Beneath.refl
      · exact hpath a ha
    · intro a ha hcycle
      rcases mem_cons.mp ha with rfl | ha
      · exact h.not_beneath_of_child hc hcycle
      · exact habove a ha (hcycle.below_child hc)
    · simp only [length_cons]
      omega

theorem Treelike.shallow_slots (h : t.Treelike id) (hslots : ∀ a, t.Beneath id a → t.HasSlot a) :
    t.Shallow (t.size + 1) id :=
  h.shallow_below (fun _ hnodup => length_le_size hnodup) hslots nodup_nil (by simp) (by simp) _
    (by simp)

theorem Intact.shallow (h : t.Intact id) : t.Shallow (t.size + 1) id :=
  h.treelike.shallow_slots fun _ ha => (h.beneath ha).hasSlot

theorem length_le_store (hnodup : ids.Nodup) (hhas : ∀ a ∈ ids, t.Has a) :
    ids.length ≤ t.size + t.loose.size := by
  have hsub : ids ⊆ (List.range t.size).map NodeId.slot ++ (List.range t.loose.size).map
    NodeId.loose := by
    intro a ha
    have hmem := hhas a ha
    cases a with
    | slot n => exact mem_append_left _ (mem_map.mpr ⟨n, mem_range.mpr hmem, rfl⟩)
    | loose n => exact mem_append_right _ (mem_map.mpr ⟨n, mem_range.mpr hmem, rfl⟩)
  simpa using (subperm_of_subset hnodup hsub).length_le

theorem Treelike.shallow (h : t.Treelike id) : t.Shallow (t.size + t.loose.size + 1) id :=
  h.shallow_below (fun _ hnodup => length_le_store hnodup) (fun _ ha => (h.beneath ha).has)
    nodup_nil (by simp) (by simp) _ (by simp)

end UnitySharp.Tree

namespace UnitySharp

open List

/-! ## Parts of a draft -/

/-- What a draft takes over from a tree: a whole subtree, or a single node that is given other
children. -/
inductive Part where
  | whole (id : NodeId)
  | single (id : NodeId)

def Part.Covers (t : Tree) : Part → NodeId → Prop
  | .whole top, a => t.Beneath top a ∧ t.HasSlot a
  | .single id, a => a = id ∧ t.HasSlot a

/-- A part is ready if it is a treelike subtree or a single node with a slot.  Loose nodes in a
subtree have to have the roles of their kinds. -/
def Part.Ready (t : Tree) : Part → Prop
  | .whole top => t.Treelike top ∧ ∀ a, t.Beneath top a → ¬t.HasSlot a → t.Laid a
  | .single id => t.HasSlot id

/-- Parts are ready if each of them is and no two overlap. -/
structure PartsReady (t : Tree) (parts : List Part) : Prop where
  ready : ∀ part ∈ parts, part.Ready t
  apart : parts.Pairwise fun x y => ∀ a, x.Covers t a → ¬y.Covers t a

variable {t u : Tree} {part : Part} {parts first second : List Part} {a id top : NodeId}

theorem Part.Covers.hasSlot (h : part.Covers t a) : t.HasSlot a := by
  cases part with
  | whole top => exact h.2
  | single id => exact h.2

theorem Tree.Intact.ready (h : t.Intact top) : (Part.whole top).Ready t :=
  ⟨h.treelike, fun _ ha hloose => absurd (h.beneath ha).hasSlot hloose⟩

theorem Part.Ready.has_of_beneath (h : (Part.whole top).Ready t) (hbelow : t.Beneath top a) :
    t.Has a :=
  (h.1.beneath hbelow).has

/-- Two trees have the same children and inner links beneath a node.  The parent of the node itself
may differ. -/
def Tree.SameBeneath (t u : Tree) (top : NodeId) : Prop :=
  ∀ a, t.Beneath top a →
    (u.node a).kids = (t.node a).kids ∧ (a ≠ top → u.parent a = t.parent a)

theorem Part.Ready.transfer (h : part.Ready t) (hkeeps : t.Keeps u)
    (hsame : ∀ top, part = .whole top → ∀ a, t.Beneath top a → (u.node a).kids = (t.node a).kids) :
    part.Ready u ∧ ∀ a, part.Covers u a ↔ part.Covers t a := by
  cases part with
  | whole top =>
    have hchildren : ∀ a, t.Beneath top a → u.children a = t.children a := fun a ha =>
      congrArg allKids (hsame top rfl a ha)
    have hbeneath : ∀ a, u.Beneath top a ↔ t.Beneath top a := fun a =>
      ⟨fun hbelow => hbelow.of_transfer hchildren, fun hbelow => hbelow.transfer hchildren⟩
    refine ⟨⟨h.1.transfer (fun _ => hkeeps.has) hchildren, ?_⟩, ?_⟩
    · intro a ha hloose
      have hbelow := (hbeneath a).mp ha
      exact hkeeps.laid (h.has_of_beneath hbelow) (h.2 a hbelow fun hslot =>
        hloose (hkeeps.hasSlot hslot))
    · intro a
      simp only [Covers, hbeneath]
      refine and_congr_right fun hbelow => ⟨fun hslot => ?_, hkeeps.hasSlot⟩
      cases a with
      | slot n => exact h.has_of_beneath hbelow
      | loose n => exact hslot.elim
  | single id =>
    refine ⟨hkeeps.hasSlot h, fun a => ?_⟩
    simp only [Covers]
    refine and_congr_right fun heq => ?_
    subst heq
    exact ⟨fun _ => h, hkeeps.hasSlot⟩

theorem PartsReady.transfer (h : PartsReady t parts) (hkeeps : t.Keeps u)
    (hsame : ∀ top, Part.whole top ∈ parts → ∀ a, t.Beneath top a →
      (u.node a).kids = (t.node a).kids) :
    PartsReady u parts ∧ ∀ part ∈ parts, ∀ a, part.Covers u a ↔ part.Covers t a := by
  have hpart : ∀ part ∈ parts, part.Ready u ∧ ∀ a, part.Covers u a ↔ part.Covers t a := by
    intro part hmem
    apply (h.ready part hmem).transfer hkeeps
    intro top heq
    subst heq
    exact hsame top hmem
  refine ⟨⟨fun part hmem => (hpart part hmem).1, ?_⟩, fun part hmem => (hpart part hmem).2⟩
  refine h.apart.imp_of_mem ?_
  intro x y hx hy hapart a hxa hya
  exact hapart a (((hpart x hx).2 a).mp hxa) (((hpart y hy).2 a).mp hya)

theorem PartsReady.left (h : PartsReady t (first ++ second)) : PartsReady t first :=
  ⟨fun part hpart => h.ready part (mem_append_left _ hpart),
    (pairwise_append.mp h.apart).1⟩

theorem PartsReady.right (h : PartsReady t (first ++ second)) : PartsReady t second :=
  ⟨fun part hpart => h.ready part (mem_append_right _ hpart),
    (pairwise_append.mp h.apart).2.1⟩

theorem PartsReady.across (h : PartsReady t (first ++ second)) {x y : Part} (hx : x ∈ first)
    (hy : y ∈ second) (hxa : x.Covers t a) : ¬y.Covers t a :=
  (pairwise_append.mp h.apart).2.2 x hx y hy a hxa

theorem PartsReady.detached (h : PartsReady t parts) (gone : List NodeId) :
    PartsReady (t.detachAll gone) parts ∧
      ∀ part ∈ parts, ∀ a, part.Covers (t.detachAll gone) a ↔ part.Covers t a := by
  apply h.transfer (Tree.Keeps.detachAll t gone)
  intro top _ a _
  rw [Tree.node_detachAll]
  split <;> rfl

theorem Part.Ready.children (h : (Part.whole id).Ready t) :
    PartsReady t ((t.children id).map .whole) := by
  constructor
  · intro part hpart
    obtain ⟨c, hc, rfl⟩ := mem_map.mp hpart
    exact ⟨h.1.child hc, fun a ha => h.2 a (ha.below_child hc)⟩
  · refine pairwise_map.mpr (h.1.apart.imp ?_)
    intro x y hapart a hxa hya
    exact hapart a hxa.1 hya.1

end UnitySharp
