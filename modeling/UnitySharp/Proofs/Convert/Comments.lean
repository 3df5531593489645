import UnitySharp.Convert.Basic
import UnitySharp.Proofs.Comment.Writing
import UnitySharp.Proofs.Convert.Linked

/-!
# Comments through a conversion

Comments are attached to a tree that has none, and the writer passes over it once.  So each is
written once or an orphan.
-/

namespace UnitySharp

open UnitySharp.Tree List

variable {s : Session} {t : Tree} {a : Attachment} {text : String} {c : Comment}

namespace Convert

variable {α β : Type}

def Yields (action : Convert α) (s : Session) (post : α → Session → Prop) : Prop :=
  ∀ result after, action s = .ok result after → post result after

namespace Yields

theorem bind {action : Convert α} {next : α → Convert β} {post : β → Session → Prop}
    (h : Yields action s fun result after => Yields (next result) after post) :
      Yields (action >>= next) s post := by
  intro result after hrun
  simp only [Bind.bind, EStateM.bind] at hrun
  split at hrun
  · rename_i middle session hfirst
    exact h middle session hfirst result after hrun
  · exact absurd hrun (by simp)

theorem mono {action : Convert α} {post weaker : α → Session → Prop} (h : Yields action s post)
    (hweaker : ∀ result after, post result after → weaker result after) : Yields action s weaker :=
  fun result after hrun => hweaker result after (h result after hrun)

theorem pure {value : α} {post : α → Session → Prop} (h : post value s) :
    Yields (Pure.pure value) s post := by
  intro result after hrun
  cases hrun
  exact h

theorem throw {failure : ConvertFailure} {post : α → Session → Prop} :
    Yields (MonadExcept.throw failure) s post := by
  intro result after hrun
  cases hrun

theorem get {post : Session → Session → Prop} (h : post s s) :
    Yields (MonadState.get : Convert Session) s post := by
  intro result after hrun
  cases hrun
  exact h

theorem report {f : Report → Report} {post : Unit → Session → Prop}
    (h : ∀ after, after.tree = s.tree → after.report = f s.report → post () after) :
    Yields (Convert.report f) s post := by
  intro result after hrun
  cases hrun
  exact h _ rfl rfl

theorem ofPass {pass : Pass α} {post : α → Session → Prop} (h : Pass.Yields pass s post) :
    Yields (Convert.ofPass pass) s post := by
  intro result after hrun
  unfold Convert.ofPass at hrun
  split at hrun
  · rename_i hpass
    cases hrun
    exact h _ _ hpass
  · cases hrun

theorem forM {items : List α} {action : α → Convert Unit} (inv : Session → Prop) (hinv : inv s)
    (h : ∀ item ∈ items, ∀ s, inv s → Yields (action item) s fun _ after => inv after) :
    Yields (items.forM action) s fun _ after => inv after := by
  induction items generalizing s with
  | nil => exact pure hinv
  | cons item rest ih =>
    have hfirst := h item mem_cons_self s hinv
    apply bind
    refine hfirst.mono ?_
    intro _ after hafter
    exact ih hafter fun other hother => h other (mem_cons_of_mem item hother)

end Yields

theorem screen_yields (errors : List AnalyzerError) (bestEffort : Bool) :
    Yields (screen errors bestEffort) s fun _ after => after.tree = s.tree := by
  apply Yields.bind
  apply Yields.get
  split
  · -- The errors are recorded, and then the conversion is refused.
    intro result after hrun
    simp only [Bind.bind, EStateM.bind] at hrun
    split at hrun <;> cases hrun
  · apply Yields.forM (fun after => after.tree = s.tree) rfl
    intro error _ middle hmiddle
    apply Yields.report
    intro after hafter _
    exact hafter.trans hmiddle

theorem takeStep_yields (step : Step) (hsound : s.tree.Sound) (hbare : s.tree.Bare) :
    Yields (takeStep step) s fun _ after => after.tree.Sound ∧ after.tree.Bare := by
  apply Yields.bind
  apply Yields.report
  intro middle hmiddle _
  have hsound' : middle.tree.Sound := hmiddle ▸ hsound
  have hbare' : middle.tree.Bare := hmiddle ▸ hbare
  apply Yields.ofPass
  refine (step.run_sparesRoot hsound').mono ?_
  intro _ after hafter
  exact ⟨hafter.sound hsound', hafter.bare hbare'⟩

theorem unsupported_foldl (records : List Unsupported) (report : Report) :
    (records.foldl (fun r record => r.addUnsupported record.kind record.description record.position)
      report).unsupported = report.unsupported ++ records := by
  induction records generalizing report with
  | nil => simp
  | cons record rest ih =>
    rw [foldl_cons, ih]
    simp [Report.addUnsupported]

theorem write_yields :
    Yields write s fun result after => after.tree = s.tree ∧ ∃ marks w,
      s.tree.marks s.tree.root = .ok marks ∧ layOut marks = .ok w ∧ result = (w.text, w.written) ∧
        after.report.unsupported = s.report.unsupported ++ unsupportedIn marks := by
  apply Yields.bind
  apply Yields.get
  dsimp only
  split
  · exact Yields.throw
  · rename_i marks hmarks
    apply Yields.bind
    apply Yields.report
    intro after hafter hreport
    split
    · exact Yields.throw
    · rename_i w hw
      exact Yields.pure ⟨hafter, marks, w, hmarks, hw, rfl, hreport ▸ unsupported_foldl _ _⟩

end Convert

theorem Tree.Plain.bare {P : Shape → Prop} (h : t.Plain P) : t.Bare := by
  intro a
  by_cases ha : t.Has a
  · exact (h a ha).2
  · rw [node_of_not_has ha]
    rfl

/-! ## What becomes of a comment -/

/-- A comment is carried by at most one node and there at most once.  Either calls that pass on its
text have been made for it, once, or it is an orphan, once. -/
structure Comment.Accounted (t : Tree) (log : List (Mark × List Call)) (orphans : List Comment)
    (c : Comment) : Prop where
  once : ∀ a, t.carried (hasIndex c.index) a ≤ 1
  home : ∀ a b, 0 < t.carried (hasIndex c.index) a → 0 < t.carried (hasIndex c.index) b → a = b
  fate : (∃ calls, Writer.passings c.index log = [calls] ∧ c.Passed calls ∧
    orphans.countP (hasIndex c.index) = 0) ∨
    (Writer.passings c.index log = [] ∧ orphans.countP (hasIndex c.index) = 1)

namespace Attachment

/-- The comments whose indices are not among the written ones. -/
def orphans (a : Attachment) (written : List Nat) : List Comment :=
  a.comments.filter fun c => !written.contains c.index

variable (h : a.known.Perm (scanComments text))

include h

theorem orphans_sublist (written : List Nat) :
    ((a.orphans written).map Comment.asFound).Sublist (scanComments text) := by
  rw [← map_asFound_comments (pairwise_scanComments _) h]
  exact filter_sublist.map _

theorem map_index_comments :
    a.comments.map Comment.index = List.range (scanComments text).length := by
  rw [← index_scanComments, ← map_asFound_comments (pairwise_scanComments _) h, List.map_map]
  rfl

theorem nodup_settled : (a.settled.map Comment.index).Nodup := by
  have hall : ((a.settled ++ a.pending).map Comment.index).Nodup := by
    rw [(a.perm_comments.map Comment.index).symm.nodup_iff, map_index_comments h]
    exact nodup_range
  rw [map_append] at hall
  exact hall.of_append_left

theorem countP_orphans (hc : c ∈ scanComments text) (written : List Nat) :
    (a.orphans written).countP (Comment.hasIndex c.index) = if c.index ∈ written then 0 else 1 := by
  have hindex : c.index ∈ a.comments.map Comment.index := by
    rw [map_index_comments h, ← index_scanComments text]
    exact mem_map_of_mem hc
  have hnodup : (a.comments.map Comment.index).Nodup := by
    rw [map_index_comments h]
    exact nodup_range
  have hall : a.comments.countP (Comment.hasIndex c.index) = 1 := by
    have hcount := count_eq_one_of_mem hnodup hindex
    rwa [count_eq_countP, countP_map] at hcount
  unfold orphans
  rw [countP_filter]
  split
  · rename_i hwritten
    apply countP_eq_zero.mpr
    intro d _ hd
    simp only [Comment.hasIndex, Bool.and_eq_true, beq_iff_eq] at hd
    exact absurd (hd.1 ▸ hwritten) (by simpa using hd.2)
  · rename_i hfree
    rw [← hall]
    apply countP_congr
    intro d _
    simp only [Comment.hasIndex, Bool.and_eq_true, beq_iff_eq]
    constructor
    · exact fun hd => hd.1
    · intro hd
      rw [hd]
      exact ⟨rfl, by simpa using hfree⟩

end Attachment

theorem Tree.Bare.carries_found (hbare : t.Bare) (hknown : a.known.Perm (scanComments text))
    {id : NodeId} (hc : c ∈ ((t.giveComments a.settled).node id).comments) :
    c.asFound ∈ scanComments text := by
  have hsettled := mem_of_mem_filter ((hbare.comments_giveComments a.settled id).subset hc)
  apply hknown.subset
  exact mem_map_of_mem (mem_append_left _ hsettled)

theorem eq_of_index_eq {d : Comment} (hc : c ∈ scanComments text) (hd : d ∈ scanComments text)
    (h : d.index = c.index) : d = c := by
  refine inj_on_of_nodup_map ?_ hd hc h
  rw [index_scanComments]
  exact nodup_range

/-- What is written under the index of a comment is the text of that comment. -/
theorem Tree.Bare.passed {marks : List Mark} {w : Writer} {calls : List Call} (hbare : t.Bare)
    (hroot : (t.giveComments a.settled).Intact (t.giveComments a.settled).root)
    (hknown : a.known.Perm (scanComments text))
    (hmarks : (t.giveComments a.settled).marks (t.giveComments a.settled).root = .ok marks)
    (hc : c ∈ scanComments text) (hcalls : calls ∈ Writer.passings c.index (w.log marks)) :
      c.Passed calls := by
  obtain ⟨d, atLineStart, hmem, hanchor, hindex, rfl⟩ := Writer.exists_of_mem_passings hcalls
  have hsame : d.text = c.text ∧ d.kind = c.kind := by
    by_contra hother
    obtain ⟨id, hcarried⟩ := hroot.carries_written
      (fun d => d.index == c.index && !(d.text == c.text && d.kind == c.kind)) hmarks hmem hanchor
      (by simpa [hindex, imp_iff_not_or] using hother)
    obtain ⟨e, he, hwanted⟩ := countP_pos_iff.mp hcarried
    rw [Bool.and_eq_true, beq_iff_eq, Bool.not_eq_true', Bool.and_eq_false_iff] at hwanted
    have hfound : e.asFound = c := eq_of_index_eq hc (hbare.carries_found hknown he) hwanted.1
    rw [← hfound] at hwanted
    rcases hwanted.2 with htext | hkind
    · exact absurd rfl (beq_eq_false_iff_ne.mp htext)
    · exact absurd rfl (beq_eq_false_iff_ne.mp hkind)
  exact Comment.passed_calls hsame.1 hsame.2 hanchor

theorem Tree.Bare.accounted {marks : List Mark} {w : Writer} (hbare : t.Bare)
    (hintact : t.Intact t.root) (hknown : a.known.Perm (scanComments text))
    (hmarks : (t.giveComments a.settled).marks (t.giveComments a.settled).root = .ok marks)
    (hw : layOut marks = .ok w) (hc : c ∈ scanComments text) :
    c.Accounted (t.giveComments a.settled) (Writer.initial.log marks) (a.orphans w.written) := by
  have hnodup := Attachment.nodup_settled hknown
  have honce := hbare.carried_le hnodup c.index
  have hhome : ∀ x y, 0 < (t.giveComments a.settled).carried (Comment.hasIndex c.index) x →
      0 < (t.giveComments a.settled).carried (Comment.hasIndex c.index) y → x = y :=
    fun x y => hbare.home_unique hnodup
  have hroot : (t.giveComments a.settled).Intact (t.giveComments a.settled).root := by
    rw [root_giveComments]
    exact hintact.giveComments a.settled
  obtain ⟨laid, hlaid, rfl⟩ := layOut_eq_ok hw
  have hle := hroot.tally_le_one honce hhome hmarks
  obtain ⟨hmemory, htally⟩ : laid.written.count c.index = [].count c.index + _ ∧ _ :=
    Writer.length_passings hlaid
  rw [count_nil, Nat.zero_add] at hmemory
  refine ⟨honce, hhome, ?_⟩
  rw [Attachment.countP_orphans hknown hc, Writer.written_finish]
  by_cases hwritten : c.index ∈ laid.written
  · left
    have hpos := count_pos_iff.mpr hwritten
    obtain ⟨calls, hcalls⟩ :=
      length_eq_one_iff.mp (show (Writer.passings c.index (Writer.initial.log marks)).length = 1 by
      omega)
    exact ⟨calls, hcalls, hbare.passed hroot hknown hmarks hc (hcalls ▸ mem_singleton_self calls),
      if_pos hwritten⟩
  · right
    have hzero := count_eq_zero.mpr hwritten
    exact ⟨length_eq_zero_iff.mp (by omega), if_neg hwritten⟩

theorem convertModule_yields (hsound : s.tree.Sound) (hbare : s.tree.Bare)
    (errors : List AnalyzerError) (bestEffort : Bool) :
    Convert.Yields (convertModule errors bestEffort) s fun conversion after =>
      ∃ (text : String) (t : Tree) (a : Attachment) (marks : List Mark) (w : Writer),
        sourceText s.tree.source = .ok text ∧ t.Bare ∧ t.Intact t.root ∧
        a.known.Perm (scanComments text) ∧ after.tree = t.giveComments a.settled ∧
          after.tree.marks after.tree.root = .ok marks ∧ layOut marks = .ok w ∧
            conversion.text = w.text ∧ conversion.orphans = a.orphans w.written := by
  apply Convert.Yields.bind
  apply Convert.Yields.get
  apply Convert.Yields.bind
  apply Convert.Yields.report
  intro s₁ h₁ _
  apply Convert.Yields.bind
  refine (Convert.screen_yields errors bestEffort).mono ?_
  intro _ s₂ h₂
  apply Convert.Yields.bind
  apply Convert.Yields.get
  apply Convert.Yields.bind
  apply Convert.Yields.ofPass
  apply Pass.Yields.ofExcept
  intro text htext
  rw [h₂, h₁] at htext
  have hsteps : Convert.Yields (Step.all.forM Convert.takeStep) s₂
      fun _ after => after.tree.Sound ∧ after.tree.Bare := by
    apply Convert.Yields.forM (fun after => after.tree.Sound ∧ after.tree.Bare)
    · rw [h₂, h₁]
      exact ⟨hsound, hbare⟩
    · intro step _ middle hmiddle
      exact Convert.takeStep_yields step hmiddle.1 hmiddle.2
  apply Convert.Yields.bind
  refine hsteps.mono ?_
  intro _ s₃ ⟨hsound₃, hbare₃⟩
  apply Convert.Yields.bind
  apply Convert.Yields.ofPass
  refine (Pass.attach_yields text).mono ?_
  rintro comments s₄ ⟨a, htree, hknown, rfl⟩
  apply Convert.Yields.bind
  refine Convert.write_yields.mono ?_
  rintro _ s₅ ⟨h₅, marks, w, hmarks, hw, rfl, _⟩
  have horphans : Convert.Yields ((a.orphans w.written).forM fun comment =>
      Convert.report fun r => r.addOrphan comment.text (some comment.position)) s₅
      fun _ after => after.tree = s₄.tree := by
    apply Convert.Yields.forM (fun after => after.tree = s₄.tree) h₅
    intro comment _ middle hmiddle
    apply Convert.Yields.report
    intro after hafter _
    exact hafter.trans hmiddle
  apply Convert.Yields.bind
  refine horphans.mono ?_
  intro _ s₆ h₆
  apply Convert.Yields.bind
  apply Convert.Yields.report
  intro s₇ h₇ _
  apply Convert.Yields.bind
  apply Convert.Yields.get
  apply Convert.Yields.pure
  have hafter : s₇.tree = s₄.tree := h₇.trans h₆
  rw [hafter]
  exact ⟨text, s₃.tree, a, marks, w, htext, hbare₃, hsound₃.intact, hknown, htree, hmarks, hw, rfl,
    rfl⟩

/-- A comment above a method, one at the end of its line, and one beside the return type of a
constructor, which is not written. -/
def Json.commentSample : Json :=
  .record [("source", .text "// a\nM // b\n/* c */ int"),
    ("module", nodeOf "Module" [("members", .list [nodeOf "TypeDef" [("name", .text "C"),
      ("members", .list [
        nodeOf "Method" [("name", .text "M"), ("pos", .list [.int 2, .int 1]),
          ("body", nodeOf "Block" [])],
        nodeOf "Constructor" [("name", .text "C"), ("body", nodeOf "Block" []),
          ("return_type",
            nodeOf "TypeRef" [("type", .text "int"), ("pos", .list [.int 3, .int 9])])]])]])])]

end UnitySharp
