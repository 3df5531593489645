import Mathlib.Data.List.Sort
import UnitySharp.Comment.Attach
import UnitySharp.Proofs.Pass.Edits

/-!
# Where comments go

An event moves comments from those that are pending to those that are settled, so at the end every
comment of the text is there once.  Each settled comment is given to its owner and to no other node.
-/

namespace UnitySharp

open List

variable {t : Tree} {c : Comment} {position : Position} {settled : List Comment}

/-! ## Sorting -/

namespace Comment

variable {le : Comment → Comment → Bool}

theorem sorted_eq (le : Comment → Comment → Bool) (comments : List Comment) :
    sorted le comments = comments.insertionSort fun c d => le c d = true := by
  induction comments with
  | nil => rfl
  | cons c rest ih =>
    rw [insertionSort_cons_eq_take_drop, ← ih]
    simp [sorted]

theorem sorted_perm (le : Comment → Comment → Bool) (comments : List Comment) :
    (sorted le comments).Perm comments :=
  sorted_eq le comments ▸ perm_insertionSort _ comments

theorem pairwise_sorted (htrans : ∀ b c d, le b c = true → le c d = true → le b d = true)
    (htotal : ∀ c d, le c d = true ∨ le d c = true) (comments : List Comment) :
    (sorted le comments).Pairwise fun c d => le c d = true := by
  have : IsTrans Comment fun c d => le c d = true := ⟨htrans⟩
  have : Std.Total fun c d : Comment => le c d = true := ⟨htotal⟩
  exact sorted_eq le comments ▸ pairwise_insertionSort _ comments

end Comment

/-! ## Comments of a text -/

namespace Comment

def asFound (c : Comment) : Comment :=
  .unclaimed c.index c.text c.kind c.position

def hasIndex (index : Nat) (c : Comment) : Bool :=
  c.index == index

theorem asFound_settledOn (c : Comment) (id : NodeId) (anchor : Anchor) :
    (c.settledOn id anchor).asFound = c.asFound := by
  unfold settledOn
  split <;> rfl

theorem asFound_consider {considered : Comment} {id : NodeId}
    (h : c.consider t id position = .ok considered) :
    considered.asFound = c.asFound := by
  unfold consider at h
  cases hside : c.besides t id position with
  | error fault =>
    rw [hside] at h
    cases h
  | ok side =>
    rw [hside] at h
    cases h
    dsimp only
    split <;> rfl

end Comment

theorem index_scanComments (text : String) :
    (scanComments text).map Comment.index = List.range (scanComments text).length := by
  unfold scanComments
  apply ext_getElem <;> simp [Comment.unclaimed]

theorem asFound_of_mem_scanComments {text : String} (h : c ∈ scanComments text) :
    c.asFound = c := by
  simp only [scanComments, mem_mapIdx] at h
  obtain ⟨i, _, rfl⟩ := h
  rfl

theorem map_asFound_scanComments (text : String) :
    (scanComments text).map Comment.asFound = scanComments text := by
  conv => rhs; rw [← map_id (scanComments text)]
  exact map_congr_left fun c hc => asFound_of_mem_scanComments hc

theorem pairwise_scanComments (text : String) :
    (scanComments text).Pairwise fun a b => a.index < b.index := by
  rw [← pairwise_map, index_scanComments]
  exact pairwise_lt_range

/-! ## One event after the other -/

namespace Attachment

variable {a next : Attachment} {event : AttachEvent}

def known (a : Attachment) : List Comment :=
  (a.settled ++ a.pending).map Comment.asFound

def either : Comment ⊕ Comment → Comment :=
  Sum.elim id id

theorem perm_sides (sides : List (Comment ⊕ Comment)) :
    (sides.filterMap Sum.getLeft? ++ sides.filterMap Sum.getRight?).Perm (sides.map either) := by
  induction sides with
  | nil => exact .refl _
  | cons side rest ih =>
    cases side with
    | inl settled => exact ih.cons settled
    | inr pending => exact perm_middle.trans (ih.cons pending)

theorem perm_sweep {id : NodeId} {pending rest : List Comment}
    (h : sweep t id position pending = .ok (settled, rest)) :
    ((settled ++ rest).map Comment.asFound).Perm (pending.map Comment.asFound) := by
  induction pending generalizing settled rest with
  | nil =>
    cases h
    exact .refl _
  | cons c pending ih =>
    unfold sweep at h
    split at h
    · obtain ⟨⟨later, left⟩, hsweep, h⟩ := Except.bind_eq_ok h
      cases h
      rw [cons_append, map_cons, map_cons, Comment.asFound_settledOn]
      exact (ih hsweep).cons _
    · split at h
      · obtain ⟨considered, hconsidered, h⟩ := Except.bind_eq_ok h
        obtain ⟨⟨later, left⟩, hsweep, h⟩ := Except.bind_eq_ok h
        cases h
        refine (perm_middle.map _).trans ?_
        rw [map_cons, map_cons, Comment.asFound_consider hconsidered]
        exact (ih hsweep).cons _
      · cases h
        exact .refl _

theorem asFound_atEnd (last : Option (NodeId × Position)) (through : Option Int) (c : Comment) :
    (either (atEnd last through c)).asFound = c.asFound := by
  unfold atEnd
  split
  · rfl
  · split
    · rfl
    · exact c.asFound_settledOn _ .right
    · rfl

theorem known_flush (a : Attachment) (through : Option Int) :
    (a.flush through).known.Perm a.known := by
  have hsides : ((a.pending.map (atEnd a.last through)).map either).map Comment.asFound =
      a.pending.map Comment.asFound := by
    simp [asFound_atEnd]
  unfold known flush
  simp only [map_append, append_assoc]
  refine List.Perm.append_left _ ?_
  rw [← hsides, ← map_append]
  exact (perm_sides _).map _

theorem known_step (h : a.step t event = .ok next) : next.known.Perm a.known := by
  cases event with
  | met id position =>
    simp only [step] at h
    obtain ⟨⟨settled, pending⟩, hsweep, h⟩ := Except.bind_eq_ok h
    cases h
    have hperm := perm_sweep hsweep
    unfold known
    simp only [map_append, append_assoc]
    rw [map_append] at hperm
    exact hperm.append_left _
  | methodEnd close =>
    simp only [step] at h
    split at h
    · cases h
      exact known_flush a _
    · cases h
      exact known_flush a _
    · cases h
      exact .refl _
  | moduleEnd =>
    cases h
    exact known_flush a none

theorem known_ofComments (comments : List Comment) :
    (ofComments comments).known.Perm (comments.map Comment.asFound) :=
  (Comment.sorted_perm _ comments).map _

theorem perm_comments (a : Attachment) : a.comments.Perm (a.settled ++ a.pending) :=
  Comment.sorted_perm _ _

theorem map_asFound_comments {comments : List Comment}
    (hindex : comments.Pairwise fun x y => x.index < y.index) (h : a.known.Perm comments) :
    a.comments.map Comment.asFound = comments := by
  have hperm : (a.comments.map Comment.asFound).Perm comments := (a.perm_comments.map _).trans h
  have hnodup : (comments.map Comment.index).Nodup :=
    pairwise_map.mpr (hindex.imp fun hlt => Nat.ne_of_lt hlt)
  have hfound : comments.Pairwise fun x y => x.index ≤ y.index := hindex.imp Nat.le_of_lt
  have hsorted : (a.comments.map Comment.asFound).Pairwise fun x y => x.index ≤ y.index := by
    rw [pairwise_map]
    refine List.Pairwise.imp of_decide_eq_true (Comment.pairwise_sorted ?_ ?_ _)
    · intro x y z hxy hyz
      simp only [decide_eq_true_eq] at *
      omega
    · intro x y
      simp only [decide_eq_true_eq]
      omega
  refine hperm.eq_of_pairwise ?_ hsorted hfound
  intro x y hx hy hxy hyx
  exact inj_on_of_nodup_map hnodup (hperm.mem_iff.mp hx) hy (Nat.le_antisymm hxy hyx)

end Attachment

/-! ## Giving comments to their owners -/

namespace Tree

variable {a b id : NodeId}

def giveComments (t : Tree) (settled : List Comment) : Tree :=
  settled.foldl giveComment t

theorem has_giveComment (t : Tree) (c : Comment) (a : NodeId) :
    (t.giveComment c).Has a ↔ t.Has a := by
  unfold giveComment
  split
  · exact has_update ..
  · exact Iff.rfl

theorem node_giveComment (hhas : t.Has a) (c : Comment) : (t.giveComment c).node a =
    { t.node a with comments := (t.node a).comments ++ [c].filter fun c => c.owner == some a } := by
  unfold giveComment
  cases howner : c.owner with
  | none => simp [howner]
  | some owner =>
    by_cases heq : a = owner
    · subst heq
      simp [howner, node_update_self hhas]
    · have hother : owner ≠ a := fun hsame => heq hsame.symm
      simp [howner, hother, node_update_ne t heq]

/-- A node gets the comments it owns, in the order in which they are given out. -/
theorem node_giveComments (hhas : t.Has a) (settled : List Comment) :
    (t.giveComments settled).node a =
    { t.node a with comments := (t.node a).comments ++ settled.filter fun c =>
      c.owner == some a } := by
  induction settled generalizing t with
  | nil => simp [giveComments]
  | cons c rest ih =>
    have hsplit : (c :: rest).filter (fun c => c.owner == some a) =
        [c].filter (fun c => c.owner == some a) ++ rest.filter fun c => c.owner == some a :=
          filter_append [c] rest
    have hrest := ih ((has_giveComment t c a).mpr hhas)
    rw [node_giveComment hhas, append_assoc, ← hsplit] at hrest
    exact hrest

theorem node_giveComments_of_not_has (hhas : ¬t.Has a) (settled : List Comment) :
    (t.giveComments settled).node a = t.node a := by
  induction settled generalizing t with
  | nil => rfl
  | cons c rest ih =>
    have hnot : ¬(t.giveComment c).Has a := mt (has_giveComment t c a).mp hhas
    refine (ih hnot).trans ?_
    rw [node_of_not_has hhas, node_of_not_has hnot]

theorem exists_given (t : Tree) (settled : List Comment) (a : NodeId) :
    ∃ given, given.Sublist (settled.filter fun c => c.owner == some a) ∧
      (t.giveComments settled).node a = { t.node a with comments :=
        (t.node a).comments ++ given } := by
  by_cases hhas : t.Has a
  · exact ⟨_, .refl _, node_giveComments hhas settled⟩
  · exact ⟨[], nil_sublist _, by rw [node_giveComments_of_not_has hhas, append_nil]⟩

theorem children_giveComments (t : Tree) (settled : List Comment) (a : NodeId) :
    (t.giveComments settled).children a = t.children a := by
  obtain ⟨given, _, hnode⟩ := exists_given t settled a
  rw [children, hnode]
  rfl

theorem parent_giveComments (t : Tree) (settled : List Comment) (a : NodeId) :
    (t.giveComments settled).parent a = t.parent a := by
  obtain ⟨given, _, hnode⟩ := exists_given t settled a
  rw [parent, hnode]
  rfl

theorem hasSlot_giveComments (t : Tree) (settled : List Comment) (a : NodeId) :
    (t.giveComments settled).HasSlot a ↔ t.HasSlot a := by
  induction settled generalizing t with
  | nil => exact Iff.rfl
  | cons c rest ih =>
    refine (ih (t.giveComment c)).trans ?_
    unfold giveComment
    split
    · exact hasSlot_update ..
    · exact Iff.rfl

theorem root_giveComments (t : Tree) (settled : List Comment) :
    (t.giveComments settled).root = t.root := by
  induction settled generalizing t with
  | nil => rfl
  | cons c rest ih =>
    refine (ih (t.giveComment c)).trans ?_
    unfold giveComment
    split
    · exact root_update ..
    · rfl

theorem Intact.giveComments (h : t.Intact id) (settled : List Comment) :
    (t.giveComments settled).Intact id :=
  h.transfer (fun a => (hasSlot_giveComments t settled a).mpr) (fun a _ =>
    children_giveComments t settled a) fun a _ => parent_giveComments t settled a

theorem Bare.comments_giveComments (h : t.Bare) (settled : List Comment) (a : NodeId) :
    ((t.giveComments settled).node a).comments.Sublist (settled.filter fun c =>
      c.owner == some a) := by
  obtain ⟨given, hgiven, hnode⟩ := exists_given t settled a
  rw [hnode, h a]
  exact hgiven

def carried (t : Tree) (wanted : Comment → Bool) (a : NodeId) : Nat :=
  (t.node a).comments.countP wanted

theorem Bare.carried_le (h : t.Bare) (hnodup : (settled.map Comment.index).Nodup) (index : Nat)
    (a : NodeId) :
    (t.giveComments settled).carried (Comment.hasIndex index) a ≤ 1 := by
  have hsub : (((t.giveComments settled).node a).comments.map Comment.index).Sublist
    (settled.map Comment.index) :=
    ((h.comments_giveComments settled a).trans filter_sublist).map _
  have hcount := nodup_iff_count_le_one.mp (hsub.nodup hnodup) index
  rwa [count_eq_countP, countP_map] at hcount

theorem Bare.home_unique (h : t.Bare) (hnodup : (settled.map Comment.index).Nodup) {index : Nat}
    (ha : 0 < (t.giveComments settled).carried (Comment.hasIndex index) a)
    (hb : 0 < (t.giveComments settled).carried (Comment.hasIndex index) b) : a = b := by
  obtain ⟨c, hc, hcindex⟩ := countP_pos_iff.mp ha
  obtain ⟨d, hd, hdindex⟩ := countP_pos_iff.mp hb
  have hcOwned := mem_filter.mp ((h.comments_giveComments settled a).subset hc)
  have hdOwned := mem_filter.mp ((h.comments_giveComments settled b).subset hd)
  have hsame : c = d := by
    apply inj_on_of_nodup_map hnodup hcOwned.1 hdOwned.1
    rw [eq_of_beq hcindex, eq_of_beq hdindex]
  subst hsame
  exact Option.some.inj ((eq_of_beq hcOwned.2).symm.trans (eq_of_beq hdOwned.2))

end Tree

/-! ## The pass -/

namespace Pass

variable {s : Session}

theorem attachStep_yields (a : Attachment) (event : AttachEvent) :
    Yields (attachStep a event) s fun next after => after.tree = s.tree ∧
      a.step s.tree event = .ok next := by
  refine Yields.read ?_
  split
  · exact Yields.throw
  · rename_i next hstep
    split
    · split
      · exact Yields.bind (Yields.say fun after hafter => Yields.pure ⟨hafter, hstep⟩)
      · exact Yields.pure ⟨rfl, hstep⟩
    · exact Yields.pure ⟨rfl, hstep⟩

/-- Attaching the comments of a text gives some of them to nodes and returns all of them. -/
theorem attach_yields (text : String) :
    Yields (attach (scanComments text)) s fun comments after =>
      ∃ a : Attachment, after.tree = s.tree.giveComments a.settled ∧
        a.known.Perm (scanComments text) ∧ comments = a.comments := by
  have hstart : (Attachment.ofComments (scanComments text)).known.Perm (scanComments text) := by
    simpa only [map_asFound_scanComments] using Attachment.known_ofComments (scanComments text)
  have hevents : Yields (s.tree.attachEvents.foldlM attachStep (.ofComments (scanComments text))) s
      fun a after => after.tree = s.tree ∧ a.known.Perm (scanComments text) := by
    refine Yields.foldlM ⟨rfl, hstart⟩ ?_
    rintro event _ a middle ⟨htree, hknown⟩
    refine (attachStep_yields a event).mono ?_
    rintro next after ⟨hafter, hstep⟩
    exact ⟨hafter.trans htree, (Attachment.known_step hstep).trans hknown⟩
  refine Yields.read (Yields.bind (hevents.mono ?_))
  rintro a middle ⟨htree, hknown⟩
  refine Yields.bind (Yields.change (Yields.pure ⟨a, ?_, hknown, rfl⟩))
  rw [Tree.giveComments, htree]

end Pass

end UnitySharp
