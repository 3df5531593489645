import UnitySharp.Proofs.Convert.Comments

/-!
# Records of unsupported constructs

Writing a module leaves one record for each node it comes across that cannot be written
(`Convert.write_records`).  It comes across every node of the tree except for those beneath a place
that is not written at all (`Tree.Hidden`).
-/

namespace UnitySharp

open Relation List

def NodeKind.isFrame : NodeKind → Bool
  | .method | .constructor | .closure => true
  | _ => false

namespace Tree

variable {t : Tree} {a c id p : NodeId} {role : Role} {u v : Visit} {depth : Nat} {iterator : Bool}

/-! ## What is not written -/

/-- The node cannot be written: its kind is unknown, or it jumps to or is a label whose name is no
identifier. -/
def Unwritable (t : Tree) (id : NodeId) : Prop :=
  t.kind id = .unknown ∨
    ∃ s, (t.shape id = .goto (.text s) ∨ t.shape id = .label (.text s)) ∧ isIdentifier s = false

def ReturnsEnumerator (t : Tree) (id : NodeId) : Prop :=
  ∃ r type, (t.node id).kid .returnType = .one r ∧ (t.node r).type? = some (some type) ∧
    type.spelling = Ty.enumerator.spelling

/-- The nearest method or closure around a node is a method, no constructor, that returns an
enumerator. -/
def InIterator (t : Tree) (id : NodeId) : Prop :=
  ∃ m, t.ancestor? NodeKind.isFrame id = some m ∧ t.kind m = .method ∧ t.ReturnsEnumerator m

/-- The node declares the variable of a loop. -/
def HeadsLoop (t : Tree) (id : NodeId) : Prop :=
  ∃ loop, t.parent id = some loop ∧ t.kind loop = .forEach ∧ id ∈ t.listed loop .declaration

/-- A node does not write its children of a role: whatever an unknown node has, what is returned in
an iterator, the return type of a constructor, and the initial value of the variable of a loop. -/
inductive Unwritten (t : Tree) (p : NodeId) : Role → Prop where
  | unknown {role : Role} (hkind : t.kind p = .unknown) : Unwritten t p role
  | returned (hkind : t.kind p = .returnStatement) (hiterator : t.InIterator p) :
      Unwritten t p .expression
  | constructed (hkind : t.kind p = .constructor) : Unwritten t p .returnType
  | looped (hloop : t.HeadsLoop p) : Unwritten t p .initializer

/-- The node is beneath a child that is not written. -/
def Hidden (t : Tree) (a : NodeId) : Prop :=
  ∃ p role c, t.Beneath t.root p ∧ c ∈ t.listed p role ∧ t.Unwritten p role ∧ t.Beneath c a

theorem unwritable_iff : t.Unwritable id ↔ (t.record? id).isSome := by
  unfold Unwritable record? kind
  constructor
  · rintro (hkind | ⟨s, hshape | hshape, hillegal⟩)
    · cases hshape : t.shape id <;> simp_all [Shape.kind]
    · simp [hshape, hillegal]
    · simp [hshape, hillegal]
  · intro h
    split at h
    · rename_i hshape
      exact .inl (by rw [hshape]; rfl)
    · rename_i s hshape
      exact .inr ⟨s, .inl hshape, by simpa using h⟩
    · rename_i s hshape
      exact .inr ⟨s, .inr hshape, by simpa using h⟩
    · cases h

theorem iterates_iff : t.iterates id = true ↔ t.ReturnsEnumerator id := by
  unfold iterates ReturnsEnumerator Printer.isIterator
  cases hkid : (t.node id).kid .returnType with
  | empty => simp
  | many ids => simp
  | one r =>
    cases htype : (t.node r).type? with
    | none => simp [htype]
    | some type =>
      cases type with
      | none => simp [htype]
      | some type =>
        have hsame :
          (some type == some Ty.enumerator) = (type.spelling == Ty.enumerator.spelling) := rfl
        simp [htype, hsame]

theorem exists_role (htidy : t.Tidy) (hchild : c ∈ t.children id) :
    ∃ role ∈ (t.kind id).layout.map Prod.fst, c ∈ t.listed id role := by
  have hlaid : t.roles id = (t.kind id).layout.map Prod.fst := htidy id (has_of_mem_children hchild)
  obtain ⟨entry, hentry, hc⟩ := mem_flatMap.mp hchild
  refine ⟨entry.1, hlaid ▸ mem_map_of_mem hentry, ?_⟩
  rw [listed, Node.kidList, Node.kid, kidsAt_of_mem (htidy.roles_nodup (has_of_mem_children hchild))
    hentry]
  exact hc

/-! ## Visits -/

def Reaches (t : Tree) : Visit → Visit → Prop :=
  ReflTransGen fun v u => u ∈ t.passed v

theorem mem_visitsWithin (h : t.Shallow depth v.id) :
    u ∈ t.visitsWithin depth v ↔ t.Reaches v u := by
  induction depth generalizing v with
  | zero => exact h.elim
  | succ depth ih =>
    rw [visitsWithin, mem_cons, mem_flatMap, Reaches, ReflTransGen.cases_head_iff]
    refine or_congr eq_comm (exists_congr fun w => and_congr_right fun hw => ?_)
    exact ih (h w.id (mem_children_of_passed hw))

theorem exists_role_of_passed (h : u ∈ t.passed v) : ∃ role ∈ (t.kind v.id).layout.map Prod.fst,
    v.form.passing (t.kind v.id) v.iterator role = some u.form ∧ u.id ∈ t.listed v.id role ∧
      u.iterator = t.handsDown v.iterator v.id := by
  obtain ⟨entry, hentry, h⟩ := mem_flatMap.mp h
  refine ⟨entry.1, mem_map_of_mem hentry, ?_⟩
  unfold passedIn at h
  split at h
  · cases h
  · rename_i form hform
    obtain ⟨c, hc, rfl⟩ := mem_map.mp h
    exact ⟨hform, hc, rfl⟩

theorem mem_passed {form : Form} (hrole : role ∈ (t.kind v.id).layout.map Prod.fst)
    (hform : v.form.passing (t.kind v.id) v.iterator role = some form)
    (hc : c ∈ t.listed v.id role) :
    ⟨form, t.handsDown v.iterator v.id, c⟩ ∈ t.passed v := by
  obtain ⟨entry, hentry, rfl⟩ := mem_map.mp hrole
  refine mem_flatMap.mpr ⟨entry, hentry, ?_⟩
  rw [passedIn, hform]
  exact mem_map_of_mem hc

theorem inIterator_child (hid : t.Standing id) (hc : c ∈ t.children id)
    (h : iterator = true ↔ t.InIterator id) :
    t.handsDown iterator id = true ↔ t.InIterator c := by
  unfold InIterator handsDown
  rw [ancestor?_child hid hc]
  split
  · rename_i hkind
    simp [hkind, NodeKind.isFrame, iterates_iff]
  · rename_i hkind
    simp [hkind, NodeKind.isFrame]
  · rename_i hkind
    simp [hkind, NodeKind.isFrame]
  · rename_i hmethod hconstructor hclosure
    have hframe : (t.kind id).isFrame = false := by
      cases hkind : t.kind id <;> first | rfl | contradiction
    simpa [hframe, InIterator] using h

structure Visited (t : Tree) (u : Visit) : Prop where
  beneath : t.Beneath t.root u.id
  iterator_iff : u.iterator = true ↔ t.InIterator u.id
  head_iff : u.form = .head ↔ t.HeadsLoop u.id
  shown : ¬t.Hidden u.id

theorem Sound.visited_root (h : t.Sound) : t.Visited ⟨.whole, false, t.root⟩ where
  beneath := Beneath.refl
  iterator_iff := by simp [InIterator, ancestor?_top h.top]
  head_iff := by simp [HeadsLoop, h.top]
  shown := by
    rintro ⟨p, role, c, hp, hc, _, hbelow⟩
    exact (h.intact.beneath hp).not_beneath_of_child ((t.listed_sublist p role).subset hc)
      (hbelow.trans hp)

theorem Visited.passing_eq_none (h : t.Visited v) (hrole : role ∈ (t.kind v.id).layout.map Prod.fst)
    (hunwritten : t.Unwritten v.id role) : v.form.passing (t.kind v.id) v.iterator role = none := by
  cases hunwritten with
  | unknown hkind =>
    rw [hkind] at hrole ⊢
    simp only [NodeKind.layout, map_cons, map_nil, mem_singleton] at hrole
    simp [Form.passing, hrole]
  | returned hkind hin => simp [Form.passing, hkind, h.iterator_iff.mpr hin]
  | constructed hkind => simp [Form.passing, hkind]
  | looped hloop => simp [Form.passing, h.head_iff.mpr hloop]

theorem Visited.passed (hsound : t.Sound) (h : t.Visited v) (hu : u ∈ t.passed v) :
    t.Visited u := by
  have hstanding := hsound.standing.beneath h.beneath
  have hchild := mem_children_of_passed hu
  have hparent := hstanding.intact.parent_child hchild
  obtain ⟨role, hrole, hform, hlisted, hiterator⟩ := exists_role_of_passed hu
  have hrole_eq : ∀ other, u.id ∈ t.listed v.id other → role = other := by
    intro other hother
    by_contra hne
    exact not_mem_other_role hstanding.intact.nodup hne hlisted hother
  refine ⟨h.beneath.tail hchild, ?_, ?_, ?_⟩
  · rw [hiterator]
    exact inIterator_child hstanding hchild h.iterator_iff
  · constructor
    · intro hhead
      rw [hhead, Form.passing] at hform
      split at hform
      · split at hform <;> cases hform
      · split at hform
        · cases hform
        · split at hform
          · rename_i hloop
            exact ⟨v.id, hparent, hloop.1, hloop.2 ▸ hlisted⟩
          · split at hform <;> cases hform
    · rintro ⟨loop, hloop, hkind, hdeclared⟩
      cases hparent.symm.trans hloop
      rw [hrole_eq _ hdeclared, hkind, Form.passing] at hform
      split at hform
      · simp at hform
      · simpa using hform.symm
  · rintro ⟨p, other, c, hp, hc, hunwritten, hbelow⟩
    have hpchild : c ∈ t.children p := (t.listed_sublist p other).subset hc
    rcases hbelow.eq_or_holder with rfl | ⟨holder, hholder, hheld⟩
    · obtain rfl : v.id = p :=
        Option.some.inj (hparent.symm.trans ((hsound.intact.beneath hp).parent_child hpchild))
      cases hrole_eq other hc
      rw [h.passing_eq_none hrole hunwritten] at hform
      cases hform
    · have hsame : holder = v.id :=
        Option.some.inj
          (((hsound.intact.beneath ((hp.tail hpchild).trans hholder)).parent_child hheld).symm.trans
            hparent)
      exact h.shown ⟨p, other, c, hp, hc, hunwritten, hsame ▸ hholder⟩

def LoopsDeclare (t : Tree) : Prop :=
  ∀ loop, t.Beneath t.root loop → t.kind loop = .forEach → ∀ c ∈ t.listed loop .declaration,
    t.kind c = .declaration

theorem Visited.unwritten (hsound : t.Sound) (hloops : t.LoopsDeclare) (h : t.Visited v)
    (hrole : role ∈ (t.kind v.id).layout.map Prod.fst)
    (hnone : v.form.passing (t.kind v.id) v.iterator role = none) :
    t.Unwritten v.id role := by
  rw [Form.passing] at hnone
  split at hnone
  · rename_i hhead
    have hheads := h.head_iff.mp hhead
    obtain ⟨loop, hparent, hkind, hlisted⟩ := hheads
    have hloop : t.Beneath t.root loop := by
      rcases h.beneath.eq_or_holder with heq | ⟨holder, hholder, hchild⟩
      · rw [heq, hsound.top] at hparent
        cases hparent
      · rw [(hsound.intact.beneath hholder).parent_child hchild] at hparent
        cases hparent
        exact hholder
    rw [hloops loop hloop hkind _ hlisted] at hrole
    simp only [NodeKind.layout, map_cons, map_nil, mem_cons, not_mem_nil, or_false] at hrole
    rcases hrole with rfl | rfl
    · simp at hnone
    · exact .looped ⟨loop, hparent, hkind, hlisted⟩
  · split at hnone
    · rename_i hcases
      rcases hcases with hkind | ⟨hkind, hiterator⟩ | ⟨hkind, rfl⟩
      · exact .unknown hkind
      · rw [hkind] at hrole
        simp only [NodeKind.layout, map_cons, map_nil, mem_singleton] at hrole
        exact hrole ▸ .returned hkind (h.iterator_iff.mp hiterator)
      · exact .constructed hkind
    · split at hnone
      · cases hnone
      · split at hnone <;> cases hnone

theorem Visited.reaches (hsound : t.Sound) (h : t.Visited v) (hu : t.Reaches v u) :
    t.Visited u := by
  induction hu with
  | refl => exact h
  | tail _ hstep ih => exact ih.passed hsound hstep

/-- Every node of the tree is visited, except for those that are hidden. -/
theorem Sound.exists_reaches_iff (hsound : t.Sound) (hloops : t.LoopsDeclare) :
    (∃ u, t.Reaches ⟨.whole, false, t.root⟩ u ∧ u.id = a) ↔ t.Beneath t.root a ∧ ¬t.Hidden a := by
  constructor
  · rintro ⟨u, hu, rfl⟩
    have hvisited := hsound.visited_root.reaches hsound hu
    exact ⟨hvisited.beneath, hvisited.shown⟩
  · rintro ⟨hbelow, hshown⟩
    induction hbelow with
    | refl => exact ⟨_, ReflTransGen.refl, rfl⟩
    | @tail p c hp hc ih =>
      obtain ⟨v, hv, rfl⟩ := ih fun ⟨top, role, low, htop, hlow, hunwritten, hbelow⟩ =>
        hshown ⟨top, role, low, htop, hlow, hunwritten, hbelow.tail hc⟩
      have hvisited := hsound.visited_root.reaches hsound hv
      obtain ⟨role, hrole, hlisted⟩ := exists_role hsound.tidy hc
      cases hpassing : v.form.passing (t.kind v.id) v.iterator role with
      | none =>
        have hunwritten := hvisited.unwritten hsound hloops hrole hpassing
        exact absurd ⟨v.id, role, c, hp, hlisted, hunwritten, Beneath.refl⟩ hshown
      | some form => exact ⟨_, hv.tail (mem_passed hrole hpassing hlisted), rfl⟩

/-! ## Records -/

theorem unsupportedIn_ownNotes (t : Tree) (v : Visit) :
    unsupportedIn (t.ownNotes v) = (t.record? v.id).toList := by
  have hcomments : ∀ comments : List Comment, unsupportedIn (comments.map Mark.comment) = [] := by
    intro comments
    simp [unsupportedIn]
  have hrecords : unsupportedIn (t.recordMarks v.id) = (t.record? v.id).toList := by
    unfold recordMarks
    cases t.record? v.id <;> rfl
  rw [ownNotes, unsupportedIn, filterMap_append, ← unsupportedIn, ← unsupportedIn, hrecords]
  unfold Printer.commentMarks
  split
  · rfl
  · split
    · rfl
    · rw [hcomments]
      rfl

/-- The records among the marks of a node are those of the nodes visited beneath it. -/
theorem perm_unsupportedIn {bound : Nat} (hbound : 2 * depth ≤ bound) {marks : List Mark}
    (hmarks : Printer.marksWithin t depth iterator id = .ok marks) :
    (unsupportedIn marks).Perm
    (((t.visitsWithin bound ⟨.whole, iterator, id⟩).map Visit.id).filterMap t.record?) := by
  classical
  have hcount : ∀ (marks : List Mark) (record : Unsupported),
      (unsupportedIn marks).count record = tally (fun mark => mark = .unsupported record)
        marks := by
    intro marks record
    rw [List.count, unsupportedIn, countP_filterMap]
    refine countP_congr fun mark _ => ?_
    cases mark <;> simp [Mark.isNote]
  refine perm_iff_count.mpr fun record => ?_
  rw [hcount, (Printer.marksWithin_prints t _ depth iterator id hbound marks hmarks).2, tallyWithin,
    filterMap_map, filterMap_eq_flatMap_toList, count_flatMap]
  congr 1
  refine map_congr_left fun v _ => ?_
  rw [← hcount, unsupportedIn_ownNotes]
  rfl

end Tree

theorem forall₂_filterMap {α β : Type} (f : α → Option β) (items : List α) :
    List.Forall₂ (fun a b => f a = some b) (items.filter fun a => (f a).isSome)
    (items.filterMap f) := by
  induction items with
  | nil => exact .nil
  | cons a rest ih =>
    cases hf : f a with
    | none => simpa [hf] using ih
    | some b => simpa [hf] using ih

/-- Unsupported constructs are recorded exactly.  Writing a module whose loops declare their
variables adds one record for each node of the tree that cannot be written and is not hidden, and no
other record. -/
theorem Convert.write_records {s after : Session} {result : String × List Nat}
    (hsound : s.tree.Sound) (hloops : s.tree.LoopsDeclare)
    (hwrite : Convert.write s = .ok result after) :
    ∃ ids added, after.report.unsupported = s.report.unsupported ++ added ∧
      List.Forall₂ (fun id record => s.tree.record? id = some record) ids added ∧ ids.Nodup ∧
        ∀ id, id ∈ ids ↔ s.tree.Beneath s.tree.root id ∧ s.tree.Unwritable id ∧
          ¬s.tree.Hidden id := by
  obtain ⟨_, marks, _, hmarks, _, _, hreport⟩ := Convert.write_yields result after hwrite
  have hshallow : ∀ depth, s.tree.size + 1 ≤ depth → s.tree.Shallow depth s.tree.root := by
    intro depth hdepth
    induction depth, hdepth using Nat.le_induction with
    | base => exact hsound.intact.shallow
    | succ depth _ ih => exact ih.succ
  let visited := (s.tree.visitsWithin (2 * (s.tree.size + 1)) ⟨.whole, false, s.tree.root⟩).map
    Visit.id
  have hvisited : ∀ id, id ∈ visited ↔ s.tree.Beneath s.tree.root id ∧ ¬s.tree.Hidden id := by
    intro id
    rw [← hsound.exists_reaches_iff hloops, mem_map]
    exact exists_congr fun u => and_congr_left fun _ =>
      Tree.mem_visitsWithin (hshallow _ (by omega))
  obtain ⟨ids, hrecorded, hperm⟩ :=
    perm_comp_forall₂ (Tree.perm_unsupportedIn (Nat.le_refl _) hmarks)
    (forall₂_filterMap s.tree.record? visited).flip
  refine ⟨ids, _, hreport, hrecorded.flip, ?_, fun id => ?_⟩
  · exact hperm.nodup_iff.mpr
      ((hsound.intact.nodup_visitsWithin (v := ⟨.whole, false, s.tree.root⟩) _).filter _)
  · rw [hperm.mem_iff, mem_filter, hvisited, Tree.unwritable_iff]
    tauto

/-- A loop over an unknown expression, a jump to a label that is no identifier, and a return of an
unknown expression in an iterator. -/
def Json.recordSample : Json :=
  let typeRef (type : String) := nodeOf "TypeRef" [("type", .text type)]
  let loop := nodeOf "ForEach"
    [("declaration", nodeOf "Declaration" [("name", .text "x"), ("type_ref", typeRef "int")]),
      ("iterator", nodeOf "Odd" []), ("body", nodeOf "Block" [])]
  let body := nodeOf "Block" [("statements", .list [loop, nodeOf "Goto" [("label", .text "a b")],
    nodeOf "Return" [("expr", nodeOf "Odd" [])]])]
  .record [("module", nodeOf "Module" [("members", .list [nodeOf "TypeDef" [("name", .text "C"),
    ("members", .list [nodeOf "Method" [("name", .text "M"),
      ("return_type", typeRef "IEnumerator"), ("body", body)]])]])])]

theorem Convert.write_recordSample : ∃ document result after ids added,
    readDocument Json.recordSample .null = .ok document ∧ document.tree.LoopsDeclare ∧
      Convert.write ⟨document.tree, .ofVerbosity 0 none⟩ = .ok result after ∧
        after.report.unsupported = added ∧
        List.Forall₂ (fun id record => document.tree.record? id = some record) ids added ∧
        ids.length = 2 := by
  obtain ⟨document, hread, hcheck⟩ := Json.exists_of_holds (show Json.recordSample.holds (fun t =>
    ((t.walk t.root).all fun loop => t.kind loop != .forEach ||
        (t.listed loop .declaration).all fun c => t.kind c == .declaration) &&
      (Session.mk t (.ofVerbosity 0 none)).runsTo Convert.write fun _ after =>
        after.report.unsupported.length == 2) = true by decide +kernel)
  obtain ⟨hloops, hcheck⟩ := Bool.and_eq_true_iff.mp hcheck
  obtain ⟨result, after, hwrite, hrecords⟩ := Session.exists_of_runsTo hcheck
  have hsound := readDocument_sound hread
  have hdeclare : document.tree.LoopsDeclare := by
    intro loop hloop hkind c hc
    have hwalk := all_eq_true.mp hloops loop (Tree.mem_walk_of_beneath hsound.intact.shallow hloop)
    simp only [hkind, bne_self_eq_false, Bool.false_or, all_eq_true, beq_iff_eq] at hwalk
    exact hwalk c hc
  obtain ⟨ids, added, hreport, hpaired, _⟩ := Convert.write_records hsound hdeclare hwrite
  rw [show after.report.unsupported = added from hreport] at hrecords
  refine ⟨document, result, after, ids, added, hread, hdeclare, hwrite, hreport, hpaired, ?_⟩
  exact hpaired.length_eq.trans (eq_of_beq hrecords)

end UnitySharp
