import UnitySharp.Tree.Edit
import Mathlib.Data.List.Nodup
import Mathlib.Logic.Relation

/-!
# Reading a tree after a change

Every operation on trees comes down to changing one node, adding a node, or both.  Later files read
trees through these equations and never look at the arrays.
-/

namespace UnitySharp

open List

variable {α β : Type} {role : Role}

/-! ## Children by role -/

theorem allKids_nil : allKids ([] : Kids α) = [] := rfl

theorem allKids_cons (role : Role) (occupants : Occupants α) (rest : Kids α) :
    allKids ((role, occupants) :: rest) = occupants.toList ++ allKids rest := by
  simp [allKids]

theorem kidsAt_sublist_allKids (role : Role) (kids : Kids α) :
    (kidsAt role kids).toList.Sublist (allKids kids) := by
  induction kids with
  | nil => simp [kidsAt, allKids, Occupants.toList]
  | cons entry rest ih =>
    obtain ⟨r, occupants⟩ := entry
    rw [allKids_cons]
    by_cases hrole : r = role
    · simp [kidsAt, hrole]
    · simp only [kidsAt, hrole, if_false]
      exact ih.trans (sublist_append_right _ _)

theorem exists_split_at_role {kids : Kids α}
    (hrole : kids.any (fun entry => entry.1 == role) = true) :
    ∃ before after,
      allKids kids = before ++ (kidsAt role kids).toList ++ after ∧
        ∀ occupants, allKids (setKids role occupants kids) = before ++ occupants.toList ++
          after := by
  induction kids with
  | nil => simp at hrole
  | cons entry rest ih =>
    obtain ⟨r, old⟩ := entry
    by_cases hr : r = role
    · refine ⟨[], allKids rest, ?_, ?_⟩
      · simp [kidsAt, hr, allKids_cons]
      · intro occupants
        simp [setKids, hr, allKids_cons]
    · have hrest : rest.any (fun entry => entry.1 == role) = true := by
        simpa [hr] using hrole
      obtain ⟨before, after, hsplit, hset⟩ := ih hrest
      refine ⟨old.toList ++ before, after, ?_, ?_⟩
      · simp [kidsAt, hr, allKids_cons, hsplit]
      · intro occupants
        simp [setKids, hr, allKids_cons, hset occupants]

theorem setKids_of_absent {occupants : Occupants α} {kids : Kids α}
    (hrole : kids.any (fun entry => entry.1 == role) = false) :
      setKids role occupants kids = kids := by
  induction kids with
  | nil => rfl
  | cons entry rest ih =>
    obtain ⟨r, old⟩ := entry
    have hr : r ≠ role ∧ rest.any (fun entry => entry.1 == role) = false := by
      simpa using hrole
    simp [setKids, hr.1, ih hr.2]

theorem map_fst_setKids (role : Role) (occupants : Occupants α) (kids : Kids α) :
    (setKids role occupants kids).map Prod.fst = kids.map Prod.fst := by
  induction kids with
  | nil => rfl
  | cons entry rest ih =>
    obtain ⟨r, old⟩ := entry
    by_cases hr : r = role
    · simp [setKids, hr]
    · simp [setKids, hr, ih]

theorem kidsAt_setKids_ne {other : Role} (hne : other ≠ role) (occupants : Occupants α)
    (kids : Kids α) :
    kidsAt other (setKids role occupants kids) = kidsAt other kids := by
  induction kids with
  | nil => rfl
  | cons entry rest ih =>
    obtain ⟨r, old⟩ := entry
    by_cases hr : r = role
    · have hother : r ≠ other := fun h => hne (h.symm.trans hr)
      simp [setKids, hr, kidsAt, hr ▸ hother]
    · by_cases ho : r = other
      · rw [setKids, if_neg hr]
        simp [kidsAt, ho]
      · simp [setKids, hr, kidsAt, ho, ih]

theorem kidsAt_setKids_self {kids : Kids α} (hrole : kids.any (fun entry => entry.1 == role) = true)
    (occupants : Occupants α) : kidsAt role (setKids role occupants kids) = occupants := by
  induction kids with
  | nil => simp at hrole
  | cons entry rest ih =>
    obtain ⟨r, old⟩ := entry
    by_cases hr : r = role
    · simp [setKids, hr, kidsAt]
    · have hrest : rest.any (fun entry => entry.1 == role) = true := by
        simpa [hr] using hrole
      simp [setKids, hr, kidsAt, ih hrest]

theorem setKids_kidsAt (role : Role) (kids : Kids α) :
    setKids role (kidsAt role kids) kids = kids := by
  induction kids with
  | nil => rfl
  | cons entry rest ih =>
    obtain ⟨r, old⟩ := entry
    by_cases hr : r = role
    · simp [setKids, kidsAt, hr]
    · simp [setKids, kidsAt, hr, ih]

theorem any_role_of_kidsAt_ne_empty {kids : Kids α} (child : α)
    (hchild : child ∈ (kidsAt role kids).toList) :
    kids.any (fun entry => entry.1 == role) = true := by
  induction kids with
  | nil => simp [kidsAt, Occupants.toList] at hchild
  | cons entry rest ih =>
    obtain ⟨r, old⟩ := entry
    by_cases hr : r = role
    · simp [hr]
    · simp only [kidsAt, hr, if_false] at hchild
      simpa [hr] using ih hchild

/-! ## Changing every child -/

def mapKids {α β : Type} (f : α → β) (kids : Kids α) : Kids β :=
  kids.map fun entry => (entry.1, entry.2.map f)

section

variable {γ : Type} (f : α → β) (g : β → γ) (kids : Kids α)

@[simp] theorem Occupants.toList_map (occupants : Occupants α) :
    (occupants.map f).toList = occupants.toList.map f := by
  cases occupants <;> simp [Occupants.map, Occupants.toList]

@[simp] theorem Occupants.one?_map (occupants : Occupants α) :
    (occupants.map f).one? = occupants.one?.map f := by
  cases occupants <;> rfl

theorem Occupants.map_map (occupants : Occupants α) :
    (occupants.map f).map g = occupants.map fun c => g (f c) := by
  cases occupants <;> simp [Occupants.map]

theorem Occupants.map_congr {occupants : Occupants α} {f g : α → β}
    (h : ∀ c ∈ occupants.toList, f c = g c) :
    occupants.map f = occupants.map g := by
  cases occupants <;> simp_all [Occupants.map, Occupants.toList]

@[simp] theorem kidsAt_mapKids (role : Role) :
    kidsAt role (mapKids f kids) = (kidsAt role kids).map f := by
  induction kids with
  | nil => rfl
  | cons entry rest ih =>
    obtain ⟨r, occupants⟩ := entry
    simp only [mapKids, map_cons, kidsAt] at ih ⊢
    split
    · rfl
    · exact ih

@[simp] theorem allKids_mapKids : allKids (mapKids f kids) = (allKids kids).map f := by
  simp [allKids, mapKids, flatMap_map, map_flatMap]

@[simp] theorem map_fst_mapKids : (mapKids f kids).map Prod.fst = kids.map Prod.fst := by
  simp [mapKids]

theorem mapKids_mapKids : mapKids g (mapKids f kids) = mapKids (fun c => g (f c)) kids := by
  simp [mapKids, Occupants.map_map]

end

theorem mapKids_congr {f g : α → β} {kids : Kids α} (h : ∀ c ∈ allKids kids, f c = g c) :
    mapKids f kids = mapKids g kids := by
  refine map_congr_left fun entry hentry => ?_
  rw [Occupants.map_congr]
  exact fun c hc => h c (mem_flatMap.mpr ⟨entry, hentry, hc⟩)

@[simp] theorem mapKids_id (kids : Kids α) : mapKids (fun c => c) kids = kids := by
  have hmap : ∀ occupants : Occupants α, occupants.map (fun c => c) = occupants :=
    fun occupants => by
    cases occupants <;> simp [Occupants.map]
  simp [mapKids, hmap]

namespace Tree

variable {t : Tree} {id other : NodeId} {f : Node → Node} {node : Node}

/-! ## Identities of a tree -/

def Has (t : Tree) : NodeId → Prop
  | .slot n => n < t.nodes.size
  | .loose n => n < t.loose.size

def HasSlot (t : Tree) : NodeId → Prop
  | .slot n => n < t.nodes.size
  | .loose _ => False

theorem HasSlot.has (h : t.HasSlot id) : t.Has id := by
  cases id with
  | slot n => exact h
  | loose n => exact h.elim

theorem HasSlot.exists_eq (h : t.HasSlot id) : ∃ n, id = .slot n ∧ n < t.size := by
  cases id with
  | slot n => exact ⟨n, rfl, h⟩
  | loose n => exact h.elim

theorem node_of_not_has (h : ¬t.Has id) : t.node id = default := by
  cases id with
  | slot n =>
    have hn : t.nodes.size ≤ n := Nat.le_of_not_lt h
    simp [node, Array.getD_eq_getD_getElem?, Array.getElem?_eq_none hn]
  | loose n =>
    have hn : t.loose.size ≤ n := Nat.le_of_not_lt h
    simp [node, Array.getD_eq_getD_getElem?, Array.getElem?_eq_none hn]

theorem children_of_not_has (h : ¬t.Has id) : t.children id = [] := by
  simp only [children, node_of_not_has h]
  rfl

theorem has_of_mem_children {child : NodeId} (h : child ∈ t.children id) : t.Has id := by
  by_contra hid
  simp [children_of_not_has hid] at h

theorem parent_of_not_has (h : ¬t.Has id) : t.parent id = none := by
  simp only [parent, node_of_not_has h]
  rfl

/-! ## Changing one node -/

theorem node_update_self (h : t.Has id) (f : Node → Node) :
    (t.update id f).node id = f (t.node id) := by
  cases id with
  | slot n =>
    have hn : n < t.nodes.size := h
    simp [update, node, Array.getD_eq_getD_getElem?, Array.getElem_modify, hn]
  | loose n =>
    have hn : n < t.loose.size := h
    simp [update, node, Array.getD_eq_getD_getElem?, Array.getElem_modify, hn]

theorem node_update_ne (t : Tree) (h : other ≠ id) (f : Node → Node) :
    (t.update id f).node other = t.node other := by
  cases id with
  | slot n =>
    cases other with
    | slot m =>
      have hm : n ≠ m := fun heq => h (by rw [heq])
      simp [update, node, Array.getD_eq_getD_getElem?, Array.getElem?_modify, hm]
    | loose m => rfl
  | loose n =>
    cases other with
    | slot m => rfl
    | loose m =>
      have hm : n ≠ m := fun heq => h (by rw [heq])
      simp [update, node, Array.getD_eq_getD_getElem?, Array.getElem?_modify, hm]

@[simp] theorem has_update (t : Tree) (id other : NodeId) (f : Node → Node) :
    (t.update id f).Has other ↔ t.Has other := by
  cases id <;> cases other <;> simp [update, Has]

@[simp] theorem hasSlot_update (t : Tree) (id other : NodeId) (f : Node → Node) :
    (t.update id f).HasSlot other ↔ t.HasSlot other := by
  cases id <;> cases other <;> simp [update, HasSlot]

@[simp] theorem size_update (t : Tree) (id : NodeId) (f : Node → Node) :
    (t.update id f).size = t.size := by
  cases id <;> simp [update, size]

@[simp] theorem root_update (t : Tree) (id : NodeId) (f : Node → Node) :
    (t.update id f).root = t.root := by
  cases id <;> rfl

theorem size_loose_update (t : Tree) (id : NodeId) (f : Node → Node) :
    (t.update id f).loose.size = t.loose.size := by
  cases id <;> simp [update]

theorem update_congr {g : Node → Node} (h : f (t.node id) = g (t.node id)) :
    t.update id f = t.update id g := by
  cases id with
  | slot n =>
    have hnodes : t.nodes.modify n f = t.nodes.modify n g := by
      apply Array.ext (by simp)
      intro i _ hi
      rw [Array.getElem_modify, Array.getElem_modify]
      have hi : i < t.nodes.size := by simpa using hi
      split
      · rename_i heq
        subst heq
        simpa [node, Array.getD_eq_getD_getElem?, hi] using h
      · rfl
    simp [update, hnodes]
  | loose n =>
    have hloose : t.loose.modify n f = t.loose.modify n g := by
      apply Array.ext (by simp)
      intro i _ hi
      rw [Array.getElem_modify, Array.getElem_modify]
      have hi : i < t.loose.size := by simpa using hi
      split
      · rename_i heq
        subst heq
        simpa [node, Array.getD_eq_getD_getElem?, hi] using h
      · rfl
    simp [update, hloose]

theorem update_eq_self (h : f (t.node id) = t.node id) : t.update id f = t := by
  rw [update_congr (g := fun node => node) h]
  cases id with
  | slot n =>
    have hnodes : t.nodes.modify n (fun node => node) = t.nodes := by
      apply Array.ext (by simp)
      intro i _ _
      simp [Array.getElem_modify]
    exact congrArg (fun nodes => { t with nodes }) hnodes
  | loose n =>
    have hloose : t.loose.modify n (fun node => node) = t.loose := by
      apply Array.ext (by simp)
      intro i _ _
      simp [Array.getElem_modify]
    exact congrArg (fun loose => { t with loose }) hloose

theorem proj_node_update {g : Node → α} (h : g (f (t.node id)) = g (t.node id)) (other : NodeId) :
    g ((t.update id f).node other) = g (t.node other) := by
  by_cases hother : other = id
  · subst hother
    by_cases hhas : t.Has other
    · rw [node_update_self hhas, h]
    · rw [node_of_not_has hhas, node_of_not_has (by simpa using hhas)]
  · rw [node_update_ne t hother]

/-! ## Parents -/

@[simp] theorem has_setParent (t : Tree) (id other : NodeId) (up : Option NodeId) :
    (t.setParent id up).Has other ↔ t.Has other := has_update _ _ _ _

@[simp] theorem kids_node_setParent (t : Tree) (id other : NodeId) (up : Option NodeId) :
    ((t.setParent id up).node other).kids = (t.node other).kids :=
  proj_node_update rfl other

@[simp] theorem children_setParent (t : Tree) (id other : NodeId) (up : Option NodeId) :
    (t.setParent id up).children other = t.children other := by
  simp [children, Node.children]

theorem parent_setParent_self (h : t.Has id) (up : Option NodeId) :
    (t.setParent id up).parent id = up := by
  simp [parent, setParent, node_update_self h]

theorem node_setParent_ne (t : Tree) (h : other ≠ id) (up : Option NodeId) :
    (t.setParent id up).node other = t.node other :=
  node_update_ne t h _

@[simp] theorem has_detachAll (t : Tree) (ids : List NodeId) (other : NodeId) :
    (t.detachAll ids).Has other ↔ t.Has other := by
  induction ids generalizing t with
  | nil => rfl
  | cons id rest ih =>
    rw [show t.detachAll (id :: rest) = (t.detach id).detachAll rest from rfl, ih]
    simp [detach]

theorem node_detachAll (t : Tree) (ids : List NodeId) (other : NodeId) :
    (t.detachAll ids).node other =
      if other ∈ ids then { t.node other with parent := none } else t.node other := by
  induction ids generalizing t with
  | nil => simp [detachAll]
  | cons id rest ih =>
    rw [show t.detachAll (id :: rest) = (t.detach id).detachAll rest from rfl, ih]
    by_cases hid : other = id
    · subst hid
      have hnode : (t.detach other).node other = { t.node other with parent := none } := by
        by_cases hhas : t.Has other
        · exact node_update_self hhas _
        · rw [node_of_not_has hhas]
          rw [node_of_not_has (by simpa [detach] using hhas)]
          rfl
      by_cases hrest : other ∈ rest <;> simp [hrest, hnode]
    · have hnode : (t.detach id).node other = t.node other := node_update_ne t hid _
      simp [hid, hnode]

theorem kids_detachAll (t : Tree) (ids : List NodeId) (other : NodeId) :
    ((t.detachAll ids).node other).kids = (t.node other).kids := by
  rw [node_detachAll]
  split <;> rfl

theorem shape_detachAll (t : Tree) (ids : List NodeId) (other : NodeId) :
    (t.detachAll ids).shape other = t.shape other := by
  rw [shape, node_detachAll]
  split <;> rfl

@[simp] theorem children_detachAll (t : Tree) (ids : List NodeId) (other : NodeId) :
    (t.detachAll ids).children other = t.children other :=
  congrArg allKids (kids_detachAll t ids other)

theorem parent_detachAll (t : Tree) (ids : List NodeId) (other : NodeId) :
    (t.detachAll ids).parent other = if other ∈ ids then none else t.parent other := by
  simp only [parent, node_detachAll]
  split <;> rfl

/-! ## Roles -/

@[simp] theorem has_setRole (t : Tree) (id other : NodeId) (role : Role)
    (occupants : Occupants NodeId) :
    (t.setRole id role occupants).Has other ↔ t.Has other := has_update _ _ _ _

@[simp] theorem hasSlot_setRole (t : Tree) (id other : NodeId) (role : Role)
    (occupants : Occupants NodeId) :
    (t.setRole id role occupants).HasSlot other ↔ t.HasSlot other := hasSlot_update _ _ _ _

theorem node_setRole_ne (t : Tree) (h : other ≠ id) (role : Role) (occupants : Occupants NodeId) :
    (t.setRole id role occupants).node other = t.node other := node_update_ne t h _

theorem children_setRole_ne (t : Tree) (h : other ≠ id) (role : Role)
    (occupants : Occupants NodeId) :
    (t.setRole id role occupants).children other = t.children other := by
  simp only [children, node_setRole_ne t h]

theorem children_setRole_self (h : t.Has id) (role : Role) (occupants : Occupants NodeId) :
    (t.setRole id role occupants).children id =
      allKids (setKids role occupants (t.node id).kids) := by
  simp [children, Node.children, setRole, node_update_self h]

theorem kid_setRole_self (h : t.Has id)
    (hrole : (t.node id).kids.any (fun entry => entry.1 == role) = true)
    (occupants : Occupants NodeId) : ((t.setRole id role occupants).node id).kid role =
    occupants := by
  simp only [setRole, node_update_self h, Node.kid]
  exact kidsAt_setKids_self hrole occupants

@[simp] theorem parent_setRole (t : Tree) (id other : NodeId) (role : Role)
    (occupants : Occupants NodeId) :
    (t.setRole id role occupants).parent other = t.parent other :=
  proj_node_update (g := Node.parent) rfl other

@[simp] theorem parent_update_kids (t : Tree) (id other : NodeId) {kids : Kids NodeId} :
    (t.update id fun node => { node with kids }).parent other = t.parent other :=
  proj_node_update (g := Node.parent) rfl other

/-! ## Shapes and types -/

theorem kind_withType (shape : Shape) (type : Option Ty) :
    (shape.withType type).kind = shape.kind := by
  cases shape <;> rfl

theorem kind_node_withType (node : Node) (type : Option Ty) :
    (node.withType type).shape.kind = node.shape.kind := by
  unfold Node.withType
  split
  · exact kind_withType _ _
  · rfl

theorem kids_withType (node : Node) (type : Option Ty) : (node.withType type).kids = node.kids := by
  unfold Node.withType
  split <;> rfl

theorem parent_withType (node : Node) (type : Option Ty) :
    (node.withType type).parent = node.parent := by
  unfold Node.withType
  split <;> rfl

@[simp] theorem children_setType (t : Tree) (id other : NodeId) (type : Option Ty) :
    (t.setType id type).children other = t.children other :=
  congrArg allKids (proj_node_update (g := Node.kids) (kids_withType _ type) other)

@[simp] theorem parent_setType (t : Tree) (id other : NodeId) (type : Option Ty) :
    (t.setType id type).parent other = t.parent other :=
  proj_node_update (g := Node.parent) (parent_withType _ type) other

@[simp] theorem children_setShape (t : Tree) (id other : NodeId) (shape : Shape) :
    (t.setShape id shape).children other = t.children other :=
  congrArg allKids (proj_node_update (g := Node.kids) rfl other)

@[simp] theorem parent_setShape (t : Tree) (id other : NodeId) (shape : Shape) :
    (t.setShape id shape).parent other = t.parent other :=
  proj_node_update (g := Node.parent) rfl other

theorem detach_setRole (t : Tree) (p id : NodeId) (role : Role) (occupants : Occupants NodeId) :
    (t.setRole p role occupants).detach id = (t.detach id).setRole p role occupants := by
  cases p with
  | slot m =>
    cases id with
    | slot n =>
      have hnodes : (t.nodes.modify m fun node =>
            { node with kids := setKids role occupants node.kids }).modify n
              (fun node => { node with parent := none }) =
          (t.nodes.modify n fun node => { node with parent := none }).modify m
            fun node => { node with kids := setKids role occupants node.kids } := by
        apply Array.ext (by simp)
        intro i _ _
        simp only [Array.getElem_modify]
        split <;> split <;> rfl
      exact congrArg (fun nodes => { t with nodes }) hnodes
    | loose n => rfl
  | loose m =>
    cases id with
    | slot n => rfl
    | loose n =>
      have hloose : (t.loose.modify m fun node =>
            { node with kids := setKids role occupants node.kids }).modify n
              (fun node => { node with parent := none }) =
          (t.loose.modify n fun node => { node with parent := none }).modify m
            fun node => { node with kids := setKids role occupants node.kids } := by
        apply Array.ext (by simp)
        intro i _ _
        simp only [Array.getElem_modify]
        split <;> split <;> rfl
      exact congrArg (fun loose => { t with loose }) hloose

/-! ## New nodes -/

theorem node_pushNode_old (h : t.Has id) (node : Node) :
    (t.pushNode node).2.node id = t.node id := by
  cases id with
  | slot n =>
    have hn : n < t.nodes.size := h
    simp [pushNode, Tree.node, Array.getD_eq_getD_getElem?, Array.getElem?_push_lt hn, hn]
  | loose n => rfl

theorem node_pushNode_new (t : Tree) (node : Node) :
    (t.pushNode node).2.node (t.pushNode node).1 = node := by
  simp [pushNode, Tree.node, size, Array.getD_eq_getD_getElem?]

theorem node_pushNode_ne (h : id ≠ (t.pushNode node).1) :
    (t.pushNode node).2.node id = t.node id := by
  cases id with
  | slot n =>
    have hn : n ≠ t.nodes.size := fun heq => h (by rw [heq]; rfl)
    simp [pushNode, Tree.node, Array.getD_eq_getD_getElem?, Array.getElem?_push, hn]
  | loose n => rfl

@[simp] theorem size_pushNode (t : Tree) (node : Node) : (t.pushNode node).2.size = t.size + 1 := by
  simp [pushNode, size]

theorem has_pushNode : (t.pushNode node).2.Has id ↔ id = .slot t.size ∨ t.Has id := by
  cases id with
  | slot n =>
    simp only [pushNode, Has, size, Array.size_push, NodeId.slot.injEq]
    omega
  | loose n => simp [pushNode, Has]

theorem has_pushNode_of_has (h : t.Has id) (node : Node) : (t.pushNode node).2.Has id :=
  has_pushNode.mpr (Or.inr h)

theorem not_has_slot_size (t : Tree) : ¬t.Has (.slot t.size) := by
  simp [Has, size]

end Tree

end UnitySharp
