import UnitySharp.Proofs.Pass.Edits
import UnitySharp.Proofs.Tree.Renewed

/-!
# Subtrees as terms

A term is a subtree as a value; each node of it remembers where it was in some earlier tree, if it
was there at all.  The relation `Reads` says that a term stands at a node of a tree.
-/

namespace UnitySharp

open List

variable {α β γ : Type} {role : Role} {term : Term}

/-! ## Changes that depend on the role -/

def atRoles {α β : Type} (f : Role → α → β) (kids : Kids α) : Kids β :=
  kids.map fun entry => (entry.1, entry.2.map (f entry.1))

theorem atRoles_mapKids (f : Role → β → γ) (g : α → β) (kids : Kids α) :
    atRoles f (mapKids g kids) = atRoles (fun role a => f role (g a)) kids := by
  simp [atRoles, mapKids, Occupants.map_map]

theorem atRoles_const {f : Role → α → β} {g : α → β} {kids : Kids α}
    (h : ∀ entry ∈ kids, f entry.1 = g) :
    atRoles f kids = mapKids g kids :=
  map_congr_left fun entry hentry => by rw [h entry hentry]

theorem kidsAt_atRoles (f : Role → α → β) (role : Role) (kids : Kids α) :
    kidsAt role (atRoles f kids) = (kidsAt role kids).map (f role) := by
  induction kids with
  | nil => rfl
  | cons entry rest ih =>
    simp only [atRoles, map_cons, kidsAt] at ih ⊢
    split
    · rename_i hrole
      rw [hrole]
    · exact ih

theorem atRoles_eq_setKids {f g : Role → α → β} {kids : Kids α} {a : α}
    (hroles : (kids.map Prod.fst).Nodup) (hkid : kidsAt role kids = .one a)
    (h : ∀ r, r ≠ role → f r = g r) :
    atRoles f kids = setKids role (.one (f role a)) (atRoles g kids) := by
  induction kids with
  | nil => rfl
  | cons entry rest ih =>
    obtain ⟨r, occupants⟩ := entry
    rw [map_cons, nodup_cons] at hroles
    by_cases hrole : r = role
    · subst hrole
      rw [kidsAt, if_pos rfl] at hkid
      have hrest : atRoles f rest = atRoles g rest := by
        refine map_congr_left fun other hother => ?_
        have hne : other.1 ≠ r := fun heq => hroles.1 (mem_map.mpr ⟨other, hother, heq⟩)
        rw [h other.1 hne]
      have hcons : ∀ f : Role → α → β,
        atRoles f ((r, occupants) :: rest) = (r, occupants.map (f r)) :: atRoles f rest :=
        fun _ => rfl
      rw [hcons, hcons, setKids, if_pos rfl, hrest, hkid]
      rfl
    · rw [kidsAt, if_neg hrole] at hkid
      have hcons : ∀ f : Role → α → β,
        atRoles f ((r, occupants) :: rest) = (r, occupants.map (f r)) :: atRoles f rest :=
        fun _ => rfl
      rw [hcons, hcons, setKids, if_neg hrole, ih hroles.2 hkid, h r hrole]

theorem mapKids_setKids (f : α → β) (role : Role) (occupants : Occupants α) (kids : Kids α) :
    mapKids f (setKids role occupants kids) = setKids role (occupants.map f) (mapKids f kids) := by
  induction kids with
  | nil => rfl
  | cons entry rest ih =>
    simp only [mapKids, map_cons, setKids] at ih ⊢
    split
    · rfl
    · rw [map_cons, ih]

/-! ## Relations between kids -/

section

variable {δ : Type} {R : α → β → Prop} {S : γ → δ → Prop}

inductive Occupants.Rel (R : α → β → Prop) : Occupants α → Occupants β → Prop where
  | empty : Rel R .empty .empty
  | one {a : α} {b : β} (h : R a b) : Rel R (.one a) (.one b)
  | many {as : List α} {bs : List β} (h : List.Forall₂ R as bs) : Rel R (.many as) (.many bs)

def KidsRel (R : α → β → Prop) (kids : Kids α) (others : Kids β) : Prop :=
  List.Forall₂ (fun x y => x.1 = y.1 ∧ Occupants.Rel R x.2 y.2) kids others

theorem Occupants.Rel.toList {first : Occupants α} {second : Occupants β}
    (h : Occupants.Rel R first second) :
    List.Forall₂ R first.toList second.toList := by
  cases h with
  | empty => exact .nil
  | one h => exact .cons h .nil
  | many h => exact h

theorem forall₂_map {f : α → γ} {g : β → δ} {as : List α} {bs : List β} (h : List.Forall₂ R as bs)
    (hmap : ∀ a ∈ as, ∀ b ∈ bs, R a b → S (f a) (g b)) : List.Forall₂ S (as.map f) (bs.map g) := by
  induction h with
  | nil => exact .nil
  | cons hfirst hrest ih =>
    refine .cons (hmap _ mem_cons_self _ mem_cons_self hfirst) (ih fun a ha b hb => ?_)
    exact hmap a (mem_cons_of_mem _ ha) b (mem_cons_of_mem _ hb)

theorem forall₂_mono {T : α → β → Prop} {as : List α} {bs : List β} (h : List.Forall₂ R as bs)
    (hmono : ∀ a ∈ as, ∀ b ∈ bs, R a b → T a b) : List.Forall₂ T as bs := by
  have hmap := forall₂_map (f := fun a => a) (g := fun b => b) h hmono
  rwa [map_id', map_id'] at hmap

theorem Occupants.Rel.map {f : α → γ} {g : β → δ} {first : Occupants α} {second : Occupants β}
    (h : Occupants.Rel R first second) (hmap : ∀ a ∈ first.toList, ∀ b ∈ second.toList, R a b →
      S (f a) (g b)) :
    Occupants.Rel S (first.map f) (second.map g) := by
  cases h with
  | empty => exact .empty
  | one h => exact .one (hmap _ (by simp [Occupants.toList]) _ (by simp [Occupants.toList]) h)
  | many h => exact .many (forall₂_map h hmap)

theorem Occupants.Rel.mono {T : α → β → Prop} {first : Occupants α} {second : Occupants β}
    (h : Occupants.Rel R first second) (hmono : ∀ a ∈ first.toList, ∀ b ∈ second.toList, R a b →
      T a b) :
    Occupants.Rel T first second := by
  cases h with
  | empty => exact .empty
  | one h => exact .one (hmono _ (by simp [Occupants.toList]) _ (by simp [Occupants.toList]) h)
  | many h => exact .many (forall₂_mono h hmono)

theorem Occupants.Rel.exists_occupants {second : Occupants β}
    (h : ∀ b ∈ second.toList, ∃ a, R a b) :
    ∃ first, Occupants.Rel R first second := by
  have hlist : ∀ bs : List β, (∀ b ∈ bs, ∃ a, R a b) → ∃ as, List.Forall₂ R as bs := by
    intro bs hbs
    induction bs with
    | nil => exact ⟨[], .nil⟩
    | cons b rest ih =>
      obtain ⟨a, ha⟩ := hbs b mem_cons_self
      obtain ⟨as, has⟩ := ih fun c hc => hbs c (mem_cons_of_mem _ hc)
      exact ⟨a :: as, .cons ha has⟩
  cases second with
  | empty => exact ⟨.empty, .empty⟩
  | one b =>
    obtain ⟨a, ha⟩ := h b (by simp [Occupants.toList])
    exact ⟨.one a, .one ha⟩
  | many bs =>
    obtain ⟨as, has⟩ := hlist bs h
    exact ⟨.many as, .many has⟩

theorem forall₂_unique {as as' : List α} {bs : List β} (h : List.Forall₂ R as bs)
    (h' : List.Forall₂ R as' bs) (hunique : ∀ a ∈ as, ∀ a' b, R a b → R a' b → a = a') :
    as = as' := by
  induction h generalizing as' with
  | nil =>
    cases h'
    rfl
  | cons hab _ ih =>
    cases h' with
    | cons hab' hrest =>
      rw [hunique _ mem_cons_self _ _ hab hab',
        ih hrest fun a ha => hunique a (mem_cons_of_mem _ ha)]

theorem Occupants.Rel.unique {first first' : Occupants α} {second : Occupants β}
    (h : Occupants.Rel R first second) (h' : Occupants.Rel R first' second)
    (hunique : ∀ a ∈ first.toList, ∀ a' b, R a b → R a' b → a = a') :
    first = first' := by
  cases h with
  | empty =>
    cases h'
    rfl
  | one hab =>
    cases h' with
    | one hab' => rw [hunique _ (by simp [Occupants.toList]) _ _ hab hab']
  | many hab =>
    cases h' with
    | many hab' => rw [forall₂_unique hab hab' hunique]

theorem forall₂_join {T : α → γ → Prop} {R' : γ → β → Prop} {as : List α} {bs : List β}
    {cs : List γ} (h : List.Forall₂ R as bs) (h' : List.Forall₂ R' cs bs)
    (hjoin : ∀ a c, ∀ b ∈ bs, R a b → R' c b → T a c) :
    List.Forall₂ T as cs := by
  induction h generalizing cs with
  | nil =>
    cases h'
    exact .nil
  | cons hfirst _ ih =>
    cases h' with
    | cons hfirst' hrest' =>
      refine .cons (hjoin _ _ _ mem_cons_self hfirst hfirst') (ih hrest' fun a c b hb => ?_)
      exact hjoin a c b (mem_cons_of_mem _ hb)

theorem Occupants.Rel.join {T : α → γ → Prop} {R' : γ → β → Prop} {first : Occupants α}
    {second : Occupants β} {third : Occupants γ} (h : Occupants.Rel R first second)
    (h' : Occupants.Rel R' third second)
    (hjoin : ∀ a c, ∀ b ∈ second.toList, R a b → R' c b → T a c) : Occupants.Rel T first third := by
  cases h with
  | empty =>
    cases h'
    exact .empty
  | one hab =>
    cases h' with
    | one hcb => exact .one (hjoin _ _ _ (by simp [Occupants.toList]) hab hcb)
  | many hab =>
    cases h' with
    | many hcb => exact .many (forall₂_join hab hcb hjoin)

theorem Occupants.Rel.refl {R : α → α → Prop} (occupants : Occupants α) (h : ∀ a, R a a) :
    Occupants.Rel R occupants occupants := by
  cases occupants with
  | empty => exact .empty
  | one a => exact .one (h a)
  | many list => exact .many (forall₂_same.mpr fun a _ => h a)

namespace KidsRel

theorem refl {R : α → α → Prop} (kids : Kids α) (h : ∀ a, R a a) : KidsRel R kids kids :=
  forall₂_same.mpr fun entry _ => ⟨rfl, Occupants.Rel.refl entry.2 h⟩

theorem map {f : α → γ} {g : β → δ} {kids : Kids α} {others : Kids β} (h : KidsRel R kids others)
    (hmap : ∀ a ∈ allKids kids, ∀ b ∈ allKids others, R a b → S (f a) (g b)) :
    KidsRel S (mapKids f kids) (mapKids g others) := by
  refine forall₂_map h fun x hx y hy hxy => ⟨hxy.1, hxy.2.map fun a ha b hb => ?_⟩
  exact hmap a (mem_flatMap.mpr ⟨x, hx, ha⟩) b (mem_flatMap.mpr ⟨y, hy, hb⟩)

theorem mono {T : α → β → Prop} {kids : Kids α} {others : Kids β} (h : KidsRel R kids others)
    (hmono : ∀ a ∈ allKids kids, ∀ b ∈ allKids others, R a b → T a b) : KidsRel T kids others := by
  have hmap : KidsRel T (mapKids (fun a => a) kids) (mapKids (fun b => b) others) := h.map hmono
  rwa [mapKids_id, mapKids_id] at hmap

theorem roles_eq {kids : Kids α} {others : Kids β} (h : KidsRel R kids others) :
    kids.map Prod.fst = others.map Prod.fst := by
  induction h with
  | nil => rfl
  | cons hfirst _ ih => rw [map_cons, map_cons, hfirst.1, ih]

theorem toList {kids : Kids α} {others : Kids β} (h : KidsRel R kids others) :
    List.Forall₂ R (allKids kids) (allKids others) := by
  induction h with
  | nil => exact .nil
  | cons hfirst _ ih => exact rel_append hfirst.2.toList ih

theorem at_role {kids : Kids α} {others : Kids β} (h : KidsRel R kids others) (role : Role) :
    Occupants.Rel R (kidsAt role kids) (kidsAt role others) := by
  induction h with
  | nil => exact .empty
  | @cons x y _ _ hfirst _ ih =>
    rw [kidsAt, kidsAt, hfirst.1]
    split
    · exact hfirst.2
    · exact ih

theorem set {T : α → β → Prop} {kids : Kids α} {others : Kids β} {first : Occupants α}
    {second : Occupants β} (h : KidsRel R kids others) (hset : Occupants.Rel T first second)
    (hroles : (others.map Prod.fst).Nodup)
    (hother : ∀ entry ∈ others, entry.1 ≠ role → ∀ a, ∀ b ∈ entry.2.toList, R a b → T a b) :
    KidsRel T (setKids role first kids) (setKids role second others) := by
  induction h with
  | nil => exact .nil
  | @cons x y xs ys hfirst hrest ih =>
    rw [map_cons, nodup_cons] at hroles
    rw [forall_mem_cons] at hother
    rw [setKids, setKids, hfirst.1]
    split
    · rename_i hrole
      refine .cons ⟨rfl, hset⟩ (KidsRel.mono hrest fun a _ b hb => ?_)
      obtain ⟨entry, hentry, hb⟩ := mem_flatMap.mp hb
      refine hother.2 entry hentry (fun heq => hroles.1 ?_) a b hb
      rw [hrole, ← heq]
      exact mem_map_of_mem hentry
    · rename_i hrole
      exact .cons ⟨rfl, hfirst.2.mono fun a _ b hb => hother.1 hrole a b hb⟩ (ih hroles.2 hother.2)

theorem exists_kids {others : Kids β} (h : ∀ b ∈ allKids others, ∃ a, R a b) :
    ∃ kids, KidsRel R kids others := by
  induction others with
  | nil => exact ⟨[], .nil⟩
  | cons entry rest ih =>
    rw [allKids_cons, forall_mem_append] at h
    obtain ⟨first, hfirst⟩ := Occupants.Rel.exists_occupants h.1
    obtain ⟨kids, hkids⟩ := ih h.2
    exact ⟨(entry.1, first) :: kids, .cons ⟨rfl, hfirst⟩ hkids⟩

theorem unique {kids kids' : Kids α} {others : Kids β} (h : KidsRel R kids others)
    (h' : KidsRel R kids' others) (hunique : ∀ a ∈ allKids kids, ∀ a' b, R a b → R a' b → a = a') :
    kids = kids' := by
  induction h generalizing kids' with
  | nil =>
    cases h'
    rfl
  | cons hfirst _ ih =>
    cases h' with
    | cons hfirst' hrest' =>
      rw [allKids_cons, forall_mem_append] at hunique
      rw [Prod.ext (hfirst.1.trans hfirst'.1.symm) (hfirst.2.unique hfirst'.2 hunique.1),
        ih hrest' hunique.2]

theorem mapKids_left_iff {f : γ → α} {kids : Kids γ} {others : Kids β} :
    KidsRel R (mapKids f kids) others ↔ KidsRel (fun c b => R (f c) b) kids others := by
  have hoccupants : ∀ {first : Occupants γ} {second : Occupants β},
      Occupants.Rel R (first.map f) second ↔ Occupants.Rel (fun c b => R (f c) b) first second := by
    intro first second
    constructor
    · intro h
      cases first <;> cases h
      · exact .empty
      · rename_i h
        exact .one h
      · rename_i h
        exact .many (forall₂_map_left_iff.mp h)
    · intro h
      cases h with
      | empty => exact .empty
      | one h => exact .one h
      | many h => exact .many (forall₂_map_left_iff.mpr h)
  rw [KidsRel, mapKids, forall₂_map_left_iff]
  simp only [hoccupants]
  rfl

theorem mapKids_right_iff {f : γ → β} {kids : Kids α} {others : Kids γ} :
    KidsRel R kids (mapKids f others) ↔ KidsRel (fun a c => R a (f c)) kids others := by
  have hoccupants : ∀ {first : Occupants α} {second : Occupants γ},
      Occupants.Rel R first (second.map f) ↔ Occupants.Rel (fun a c => R a (f c)) first second := by
    intro first second
    constructor
    · intro h
      cases second <;> cases h
      · exact .empty
      · rename_i h
        exact .one h
      · rename_i h
        exact .many (forall₂_map_right_iff.mp h)
    · intro h
      cases h with
      | empty => exact .empty
      | one h => exact .one h
      | many h => exact .many (forall₂_map_right_iff.mpr h)
  rw [KidsRel, mapKids, forall₂_map_right_iff]
  simp only [hoccupants]
  rfl

theorem eq_mapKids {f : β → α} {kids : Kids α} {others : Kids β}
    (h : KidsRel (fun a b => a = f b) kids others) :
    kids = mapKids f others :=
  unique (mapKids_right_iff.mpr h) (refl _ fun _ => rfl) fun _ _ _ _ ha ha' => ha.trans ha'.symm

theorem mapKids_eq {f : α → γ} {g : β → γ} {kids : Kids α} {others : Kids β}
    (h : KidsRel R kids others) (heq : ∀ a b, R a b → f a = g b) :
    mapKids f kids = mapKids g others :=
  eq_mapKids (mapKids_left_iff.mpr (h.mono fun a _ b _ => heq a b))

theorem exists_left {kids : Kids α} {others : Kids β} (h : KidsRel R kids others) {b : β}
    (hb : b ∈ allKids others) :
    ∃ a ∈ allKids kids, R a b := by
  obtain ⟨y, hy, hb⟩ := mem_flatMap.mp hb
  obtain ⟨x, hx, hxy⟩ := exists_of_forall₂ h hy
  obtain ⟨a, ha, hab⟩ := exists_of_forall₂ hxy.2.toList hb
  exact ⟨a, mem_flatMap.mpr ⟨x, hx, ha⟩, hab⟩

theorem exists_right {kids : Kids α} {others : Kids β} (h : KidsRel R kids others) {a : α}
    (ha : a ∈ allKids kids) :
    ∃ b ∈ allKids others, R a b := by
  obtain ⟨x, hx, ha⟩ := mem_flatMap.mp ha
  obtain ⟨y, hy, hxy⟩ := exists_of_forall₂ h.flip hx
  obtain ⟨b, hb, hab⟩ := exists_of_forall₂ hxy.2.toList.flip ha
  exact ⟨b, mem_flatMap.mpr ⟨y, hy, hb⟩, hab⟩

theorem join {T : α → γ → Prop} {R' : γ → β → Prop} {kids : Kids α} {others : Kids γ}
    {third : Kids β} (h : KidsRel R kids third) (h' : KidsRel R' others third)
    (hjoin : ∀ a c, ∀ b ∈ allKids third, R a b → R' c b → T a c) : KidsRel T kids others := by
  refine forall₂_join h h' fun x z y hy hxy hzy =>
    ⟨hxy.1.trans hzy.1.symm, hxy.2.join hzy.2 fun a c b hb => ?_⟩
  exact hjoin a c b (mem_flatMap.mpr ⟨y, hy, hb⟩)

end KidsRel

end

/-! ## Terms -/

/-- What a node is apart from its links. -/
structure Face where
  shape : Shape
  givenType : Option (Option Ty)
  position : Option Position
  comments : List Comment

def Node.face (node : Node) : Face :=
  ⟨node.shape, node.givenType, node.position, node.comments⟩

/-- The type of a node, known or not; nothing if it has none at all. -/
def Face.type? (face : Face) : Option (Option Ty) :=
  face.shape.type?.or face.givenType

theorem Node.type?_face (node : Node) : node.face.type? = node.type? := rfl

/-- A subtree as a value.  The origin of a node is the place that it had before; new nodes have
none. -/
inductive Term where
  | node (origin : Option NodeId) (face : Face) (kids : List (Role × Occupants Term))

namespace Term

def origin : Term → Option NodeId
  | .node origin _ _ => origin

def face : Term → Face
  | .node _ face _ => face

def kids : Term → Kids Term
  | .node _ _ kids => kids

section

variable (origin : Option NodeId) (face : Face) (kids : Kids Term)

@[simp] theorem origin_node : (node origin face kids).origin = origin := rfl

@[simp] theorem face_node : (node origin face kids).face = face := rfl

@[simp] theorem kids_node : (node origin face kids).kids = kids := rfl

end

section

variable (step : Option NodeId → Face → Kids Term → Kids β → β)

mutual

/-- Goes through a term from the leaves up: each node is given its kids and the outcomes for
them. -/
def fold : Term → β
  | .node origin face kids => step origin face kids (foldKids kids)

def foldKids : List (Role × Occupants Term) → Kids β
  | [] => []
  | (role, occupants) :: rest => (role, foldOccupants occupants) :: foldKids rest

def foldOccupants : Occupants Term → Occupants β
  | .empty => .empty
  | .one term => .one (fold term)
  | .many terms => .many (foldAll terms)

def foldAll : List Term → List β
  | [] => []
  | term :: rest => fold term :: foldAll rest

end

theorem foldAll_eq (terms : List Term) : foldAll step terms = terms.map (fold step) := by
  induction terms with
  | nil => rfl
  | cons term rest ih => simp only [foldAll, map_cons, ih]

theorem foldKids_eq (kids : Kids Term) : foldKids step kids = mapKids (fold step) kids := by
  induction kids with
  | nil => rfl
  | cons entry rest ih =>
    obtain ⟨role, occupants⟩ := entry
    rw [foldKids, ih]
    cases occupants <;> simp [foldOccupants, foldAll_eq, mapKids, Occupants.map]

theorem fold_node (origin : Option NodeId) (face : Face) (kids : Kids Term) :
    fold step (.node origin face kids) = step origin face kids (mapKids (fold step) kids) := by
  rw [fold, foldKids_eq]

end

mutual

theorem induct {motive : Term → Prop}
    (node : ∀ origin face kids, (∀ term ∈ allKids kids, motive term) →
      motive (.node origin face kids)) :
    (term : Term) → motive term
  | .node origin face kids => node origin face kids (inductKids node kids)

theorem inductKids {motive : Term → Prop}
    (node : ∀ origin face kids, (∀ term ∈ allKids kids, motive term) →
      motive (.node origin face kids)) :
    (kids : List (Role × Occupants Term)) → ∀ term ∈ allKids kids, motive term
  | [] => by simp [allKids_nil]
  | (_, occupants) :: rest => by
      rw [allKids_cons, forall_mem_append]
      exact ⟨inductOccupants node occupants, inductKids node rest⟩

theorem inductOccupants {motive : Term → Prop}
    (node : ∀ origin face kids, (∀ term ∈ allKids kids, motive term) →
      motive (.node origin face kids)) :
    (occupants : Occupants Term) → ∀ term ∈ occupants.toList, motive term
  | .empty => by simp [Occupants.toList]
  | .one term => by simpa [Occupants.toList] using induct node term
  | .many terms => inductAll node terms

theorem inductAll {motive : Term → Prop}
    (node : ∀ origin face kids, (∀ term ∈ allKids kids, motive term) →
      motive (.node origin face kids)) :
    (terms : List Term) → ∀ term ∈ terms, motive term
  | [] => by simp
  | term :: rest => by
      rw [forall_mem_cons]
      exact ⟨induct node term, inductAll node rest⟩

end

attribute [elab_as_elim, induction_eliminator] induct

/-- A term occurs in another one: it is reached by going from term to kids. -/
abbrev Occurs : Term → Term → Prop :=
  Relation.ReflTransGen fun term kid => kid ∈ allKids term.kids

theorem occurs_node_iff {origin : Option NodeId} {face : Face} {kids : Kids Term} :
    Occurs (.node origin face kids) term ↔
      term = .node origin face kids ∨ ∃ kid ∈ allKids kids, kid.Occurs term := by
  constructor
  · intro h
    rcases Relation.ReflTransGen.cases_head h with heq | ⟨kid, hkid, hbelow⟩
    · exact Or.inl heq.symm
    · exact Or.inr ⟨kid, hkid, hbelow⟩
  · rintro (rfl | ⟨kid, hkid, hbelow⟩)
    · exact Relation.ReflTransGen.refl
    · exact Relation.ReflTransGen.head hkid hbelow

end Term

namespace Tree

variable {s t u : Tree} {known : NodeId → Prop} {a b c id old p : NodeId} {origin : Option NodeId}
  {face : Face}

def Originates (known : NodeId → Prop) (origin : Option NodeId) (id : NodeId) : Prop :=
  ∀ a, origin = some a ↔ known id ∧ a = id

/-- A term stands at a node of a tree. -/
def Reads (t : Tree) (known : NodeId → Prop) : Term → NodeId → Prop :=
  Term.fold fun origin face _ readings id =>
    t.Has id ∧ Originates known origin id ∧ (t.node id).face = face ∧
      KidsRel (fun reading child => reading child) readings (t.node id).kids

theorem reads_node_iff {kids : Kids Term} :
    t.Reads known (.node origin face kids) id ↔
      t.Has id ∧ Originates known origin id ∧ (t.node id).face = face ∧
        KidsRel (t.Reads known) kids (t.node id).kids := by
  rw [Reads, Term.fold_node, KidsRel.mapKids_left_iff]

namespace Reads

variable {other : Term}

theorem has (h : t.Reads known term id) : t.Has id := by
  cases term
  exact (reads_node_iff.mp h).1

theorem face_eq (h : t.Reads known term id) : (t.node id).face = term.face := by
  cases term
  exact (reads_node_iff.mp h).2.2.1

theorem kids (h : t.Reads known term id) : KidsRel (t.Reads known) term.kids (t.node id).kids := by
  cases term
  exact (reads_node_iff.mp h).2.2.2

theorem originates (h : t.Reads known term id) : Originates known term.origin id := by
  cases term
  exact (reads_node_iff.mp h).2.1

theorem intro (hhas : t.Has id) (horigin : Originates known origin id) {kids : Kids Term}
    (hkids : KidsRel (t.Reads known) kids (t.node id).kids) :
      t.Reads known (.node origin (t.node id).face kids) id :=
  reads_node_iff.mpr ⟨hhas, horigin, rfl, hkids⟩

theorem roles {kids : Kids Term} (h : t.Reads known (.node origin face kids) id) (htidy : t.Tidy) :
    kids.map Prod.fst = face.shape.kind.layout.map Prod.fst := by
  obtain ⟨hhas, _, hface, hkids⟩ := reads_node_iff.mp h
  rw [hkids.roles_eq, ← hface]
  exact htidy id hhas

theorem transfer (h : s.Reads known term id) (hold : ∀ a, s.Has a → t.Has a)
    (hsame : ∀ a, s.Beneath id a → (t.node a).face = (s.node a).face ∧
      (t.node a).kids = (s.node a).kids) :
    t.Reads known term id := by
  induction term generalizing id with
  | node origin face kids ih =>
    obtain ⟨hhas, horigin, hface, hkids⟩ := reads_node_iff.mp h
    obtain ⟨hfaceEq, hkidsEq⟩ := hsame id Relation.ReflTransGen.refl
    refine reads_node_iff.mpr ⟨hold id hhas, horigin, hfaceEq.trans hface, ?_⟩
    rw [hkidsEq]
    refine hkids.mono fun child hchild c hc hreads => ih child hchild hreads fun a ha => ?_
    exact hsame a (ha.below_child hc)

/-- A term is read from any tree in which the nodes beneath are the same. -/
theorem transfer_node (h : s.Reads known term id) (hold : ∀ a, s.Has a → t.Has a)
    (hsame : ∀ a, s.Beneath id a → t.node a = s.node a) : t.Reads known term id :=
  h.transfer hold fun a ha => by rw [hsame a ha]; exact ⟨rfl, rfl⟩

theorem unique (h : t.Reads known term id) (hother : t.Reads known other id) : term = other := by
  induction term generalizing id other with
  | node origin face kids ih =>
    obtain ⟨origin', face', kids'⟩ := other
    obtain ⟨_, horigin, hface, hkids⟩ := reads_node_iff.mp h
    obtain ⟨_, horigin', hface', hkids'⟩ := reads_node_iff.mp hother
    have horigins : origin = origin' := Option.ext fun a => (horigin a).trans (horigin' a).symm
    have hkidsEq : kids = kids' := hkids.unique hkids' fun child hchild other c => ih child hchild
    rw [horigins, ← hface, hface', hkidsEq]

/-- What is beneath a node is read as a part of its term. -/
theorem occurs_of_beneath (h : t.Reads known term id) (hbelow : t.Beneath id a) :
    ∃ other, term.Occurs other ∧ t.Reads known other a := by
  induction hbelow with
  | refl => exact ⟨term, Relation.ReflTransGen.refl, h⟩
  | tail _ hchild ih =>
    obtain ⟨holder, hoccurs, hreads⟩ := ih
    obtain ⟨kid, hkid, hread⟩ := hreads.kids.exists_left hchild
    exact ⟨kid, hoccurs.tail hkid, hread⟩

/-- Every part of the term of a node is read beneath the node. -/
theorem beneath_of_occurs (h : t.Reads known term id) (hoccurs : term.Occurs other) :
    ∃ a, t.Beneath id a ∧ t.Reads known other a := by
  induction hoccurs with
  | refl => exact ⟨id, Relation.ReflTransGen.refl, h⟩
  | tail _ hkid ih =>
    obtain ⟨holder, hbelow, hreads⟩ := ih
    obtain ⟨child, hchild, hread⟩ := hreads.kids.exists_right hkid
    exact ⟨child, hbelow.tail hchild, hread⟩

/-- Every intact subtree can be read as a term. -/
theorem exists_of_intact (known : NodeId → Prop) (h : t.Intact id) :
    ∃ term, t.Reads known term id := by
  classical
  induction h with
  | @intro id hslot _ _ _ ih =>
    obtain ⟨kids, hkids⟩ := KidsRel.exists_kids ih
    refine ⟨.node (if known id then some id else none) (t.node id).face kids,
      Reads.intro hslot.has ?_ hkids⟩
    intro a
    by_cases hknown : known id <;> simp [hknown, eq_comm]

end Reads

end Tree

end UnitySharp
