import UnitySharp.Proofs.Comment.Attaching

/-!
# How a comment finds its node

What becomes of one comment can be said without the others.  It waits for the first event that
settles it: a node on a later line, or the end of a scope that reaches its line, once there is a
node it could go to.  Then it goes to the closest node met on its own line, else to the node that
settles it, else to the last one met.
-/

namespace UnitySharp

open UnitySharp.Tree List

variable {t : Tree} {c decided : Comment} {before events rest : List AttachEvent}
  {event : AttachEvent} {id : NodeId} {anchor : Anchor} {distance : Int} {position : Position}
  {a : Attachment} {comments : List Comment}

/-! ## The rule for one comment -/

def AttachEvent.met? : AttachEvent → Option (NodeId × Position)
  | .met id position => some (id, position)
  | _ => none

def lastMet (events : List AttachEvent) : Option (NodeId × Position) :=
  (events.filterMap AttachEvent.met?).getLast?

/-- A node on a later line settles a comment, and so does the end of a scope on its line or
later.  A method without an end of its own ends with the last node met. -/
inductive Releases (before : List AttachEvent) (c : Comment) : AttachEvent → Prop where
  | node {id : NodeId} {position : Position} (h : c.position.line < position.line) :
      Releases before c (.met id position)
  | method {close : Option Position} {last : NodeId × Position} (hlast : lastMet before = some last)
      (h : c.position.line ≤ (close.getD last.2).line) : Releases before c (.methodEnd close)
  | module {last : NodeId × Position} (hlast : lastMet before = some last) :
      Releases before c .moduleEnd

def Waits (c : Comment) (events : List AttachEvent) : Prop :=
  ∀ before event after, events = before ++ event :: after → ¬Releases before c event

def Candidate (t : Tree) (c : Comment) (event : AttachEvent) (id : NodeId) (anchor : Anchor)
    (distance : Int) : Prop :=
  ∃ position, event = .met id position ∧ position.line = c.position.line ∧
    c.besides t id position = .ok (anchor, distance)

/-- The first of the closest nodes on the line of the comment. -/
def Picks (t : Tree) (c : Comment) (events : List AttachEvent) (id : NodeId) (anchor : Anchor)
    (distance : Int) : Prop :=
  ∃ earlier event later, events = earlier ++ event :: later ∧
    Candidate t c event id anchor distance ∧
      (∀ other ∈ earlier, ∀ i a d, Candidate t c other i a d → distance < d) ∧ ∀ other ∈ later,
      ∀ i a d, Candidate t c other i a d → distance ≤ d

/-- A comment that waits, with its pick. -/
inductive Leans (t : Tree) (c : Comment) (events : List AttachEvent) : Comment → Prop where
  | free (h : ∀ event ∈ events, ∀ i a d, ¬Candidate t c event i a d) : Leans t c events c
  | picked {id : NodeId} {anchor : Anchor} {distance : Int}
      (h : Picks t c events id anchor distance) :
      Leans t c events { c with owner := some id, anchor, distance }

/-- Where a comment goes when an event settles it. -/
inductive Goes (t : Tree) (c : Comment) (before : List AttachEvent) :
    AttachEvent → Comment → Prop where
  | picked {event : AttachEvent} {id : NodeId} {anchor : Anchor} {distance : Int}
      (h : Picks t c before id anchor distance) : Goes t c before event
        { c with owner := some id, anchor, distance }
  | above {id : NodeId} {position : Position}
      (hfree : ∀ event ∈ before, ∀ i a d, ¬Candidate t c event i a d) :
      Goes t c before (.met id position) { c with owner := some id, anchor := .above }
  | behind {event : AttachEvent} {last : NodeId × Position} (hend : event.met? = none)
      (hlast : lastMet before = some last)
      (hfree : ∀ event ∈ before, ∀ i a d, ¬Candidate t c event i a d) :
      Goes t c before event { c with owner := some last.1, anchor := .right }

/-- A comment is settled by the first event that can. -/
def Released (t : Tree) (events : List AttachEvent) (c decided : Comment) : Prop :=
  ∃ before event after, events = before ++ event :: after ∧ Waits c before ∧
    Releases before c event ∧ Goes t c before event decided

/-- What becomes of a comment. -/
def Decides (t : Tree) (events : List AttachEvent) (c decided : Comment) : Prop :=
  Released t events c decided ∨ Waits c events ∧ Leans t c events decided

/-- The distance to each node that is met on the line of the comment while it waits can be told. -/
def Measurable (t : Tree) (events : List AttachEvent) (c : Comment) : Prop :=
  ∀ before id position after, events = before ++ .met id position :: after → Waits c before →
    position.line = c.position.line → ∃ side, c.besides t id position = .ok side

/-! ## One more event -/

section

variable {more : List AttachEvent}

theorem lastMet_met (before : List AttachEvent) (id : NodeId) (position : Position) :
    lastMet (before ++ [.met id position]) = some (id, position) := by
  simp [lastMet, AttachEvent.met?]

theorem lastMet_end (hend : event.met? = none) (before : List AttachEvent) :
    lastMet (before ++ [event]) = lastMet before := by
  simp [lastMet, hend]

theorem lastMet_isSome_iff :
    (lastMet events).isSome ↔ ∃ id position, .met id position ∈ events := by
  unfold lastMet
  rw [getLast?_isSome, ne_eq, filterMap_eq_nil_iff]
  constructor
  · intro h
    simp only [not_forall] at h
    obtain ⟨event, hevent, hmet⟩ := h
    cases event with
    | met id position => exact ⟨id, position, hevent⟩
    | _ => exact absurd rfl hmet
  · rintro ⟨id, position, hmem⟩ hnone
    cases hnone _ hmem

theorem Waits.concat (h : Waits c before) (hnot : ¬Releases before c event) :
    Waits c (before ++ [event]) := by
  intro first found after heq
  rcases eq_nil_or_concat after with rfl | ⟨rest, last, rfl⟩
  · obtain ⟨rfl, hsame⟩ := append_inj' heq rfl
    cases hsame
    exact hnot
  · have hsplit : before ++ [event] = (first ++ found :: rest) ++ [last] := by simpa using heq
    obtain ⟨rfl, _⟩ := append_inj' hsplit rfl
    exact h first found rest rfl

theorem Waits.before_eq {found : AttachEvent} {first second rest' : List AttachEvent}
    (hsame : first ++ event :: rest = second ++ found :: rest') (hfirst : Waits c first)
    (hsecond : Waits c second)
    (hreleases : Releases first c event) (hreleases' : Releases second c found) : first = second ∧
      event = found := by
  rcases append_eq_append_iff.mp hsame with ⟨middle, rfl, hmiddle⟩ | ⟨middle, rfl, hmiddle⟩
  · cases middle with
    | nil =>
      cases hmiddle
      simp
    | cons head tail =>
      cases hmiddle
      exact absurd hreleases (hsecond first _ tail rfl)
  · cases middle with
    | nil =>
      cases hmiddle
      simp
    | cons head tail =>
      cases hmiddle
      exact absurd hreleases' (hfirst second _ tail rfl)

theorem Picks.least (h : Picks t c events id anchor distance) (hevent : event ∈ events) {i : NodeId}
    {a : Anchor} {d : Int} (hcandidate : Candidate t c event i a d) : distance ≤ d := by
  obtain ⟨earlier, found, later, rfl, hfound, hearlier, hlater⟩ := h
  rcases mem_append.mp hevent with hmem | hmem
  · exact Int.le_of_lt (hearlier event hmem i a d hcandidate)
  · rcases mem_cons.mp hmem with rfl | hmem
    · obtain ⟨_, hmet, _, hside⟩ := hfound
      obtain ⟨_, hmet', _, hside'⟩ := hcandidate
      rw [hmet] at hmet'
      cases hmet'
      rw [hside] at hside'
      cases hside'
      exact Int.le_refl _
    · exact hlater event hmem i a d hcandidate

theorem Picks.concat (h : Picks t c before id anchor distance)
    (hevent : ∀ i a d, Candidate t c event i a d → distance ≤ d) :
    Picks t c (before ++ [event]) id anchor distance := by
  obtain ⟨earlier, found, later, rfl, hfound, hearlier, hlater⟩ := h
  refine ⟨earlier, found, later ++ [event], by simp, hfound, hearlier, ?_⟩
  intro other hother
  rcases mem_append.mp hother with hmem | hmem
  · exact hlater other hmem
  · rw [mem_singleton.mp hmem]
    exact hevent

theorem Picks.of_last (hcandidate : Candidate t c event id anchor distance)
    (hbefore : ∀ other ∈ before, ∀ i a d, Candidate t c other i a d → distance < d) :
    Picks t c (before ++ [event]) id anchor distance :=
  ⟨before, event, [], rfl, hcandidate, hbefore, by simp⟩

theorem Picks.exists_met (h : Picks t c events id anchor distance) :
    ∃ position, .met id position ∈ events := by
  obtain ⟨earlier, _, later, rfl, ⟨position, rfl, _⟩, _⟩ := h
  exact ⟨position, by simp⟩

theorem Leans.concat (h : Leans t c before decided) (hnot : ∀ i a d, ¬Candidate t c event i a d) :
    Leans t c (before ++ [event]) decided := by
  cases h with
  | free hfree =>
    apply Leans.free
    intro other hother
    rcases mem_append.mp hother with hmem | hmem
    · exact hfree other hmem
    · rw [mem_singleton.mp hmem]
      exact hnot
  | picked hpicks =>
      exact .picked (hpicks.concat fun i a d hcandidate => absurd hcandidate (hnot i a d))

theorem Released.append (h : Released t before c decided) :
    Released t (before ++ more) c decided := by
  obtain ⟨first, event, after, rfl, hreleased⟩ := h
  exact ⟨first, event, after ++ more, by simp, hreleased⟩

end

/-! ## The rule leaves no choice -/

section

variable {first second : Comment}

theorem Picks.unique {id' : NodeId} {anchor' : Anchor} {distance' : Int}
    (h : Picks t c events id anchor distance) (h' : Picks t c events id' anchor' distance') :
    id = id' ∧ anchor = anchor' ∧ distance = distance' := by
  have hle : distance ≤ distance' := by
    obtain ⟨_, found, _, rfl, hfound, _⟩ := h'
    exact h.least (by simp) hfound
  have hge : distance' ≤ distance := by
    obtain ⟨_, found, _, rfl, hfound, _⟩ := h
    exact h'.least (by simp) hfound
  obtain ⟨earlier, event, later, rfl, hcandidate, hearlier, _⟩ := h
  obtain ⟨earlier', event', later', hsame, hcandidate', hearlier', _⟩ := h'
  have hevent : event = event' := by
    rcases append_eq_append_iff.mp hsame with ⟨middle, rfl, hmiddle⟩ | ⟨middle, rfl, hmiddle⟩
    · cases middle with
      | nil =>
        cases hmiddle
        rfl
      | cons head tail =>
        cases hmiddle
        exact absurd (hearlier' event (by simp) _ _ _ hcandidate) (by omega)
    · cases middle with
      | nil =>
        cases hmiddle
        rfl
      | cons head tail =>
        cases hmiddle
        exact absurd (hearlier event' (by simp) _ _ _ hcandidate') (by omega)
  subst hevent
  obtain ⟨_, rfl, _, hside⟩ := hcandidate
  obtain ⟨_, hmet, _, hside'⟩ := hcandidate'
  cases hmet
  rw [hside] at hside'
  cases hside'
  exact ⟨rfl, rfl, rfl⟩

theorem Picks.not_free (h : Picks t c events id anchor distance) :
    ¬∀ event ∈ events, ∀ i a d, ¬Candidate t c event i a d := by
  obtain ⟨earlier, event, later, rfl, hcandidate, _⟩ := h
  intro hfree
  exact hfree event (by simp) _ _ _ hcandidate

theorem Leans.unique (h : Leans t c events first) (h' : Leans t c events second) :
    first = second := by
  cases h with
  | free hfree =>
    cases h' with
    | free => rfl
    | picked hpicks => exact absurd hfree hpicks.not_free
  | picked hpicks =>
    cases h' with
    | free hfree => exact absurd hfree hpicks.not_free
    | picked hpicks' =>
      obtain ⟨rfl, rfl, rfl⟩ := hpicks.unique hpicks'
      rfl

theorem Goes.unique (h : Goes t c before event first) (h' : Goes t c before event second) :
    first = second := by
  cases h with
  | picked hpicks =>
    cases h' with
    | picked hpicks' =>
      obtain ⟨rfl, rfl, rfl⟩ := hpicks.unique hpicks'
      rfl
    | above hfree => exact absurd hfree hpicks.not_free
    | behind _ _ hfree => exact absurd hfree hpicks.not_free
  | above hfree =>
    cases h' with
    | picked hpicks => exact absurd hfree hpicks.not_free
    | above => rfl
    | behind hend => cases hend
  | behind hend hlast hfree =>
    cases h' with
    | picked hpicks => exact absurd hfree hpicks.not_free
    | above => cases hend
    | behind _ hlast' =>
      rw [hlast] at hlast'
      cases hlast'
      rfl

/-- What becomes of a comment depends on nothing but the comment and the events. -/
theorem Decides.unique (h : Decides t events c first) (h' : Decides t events c second) :
    first = second := by
  rcases h with ⟨before, event, after, rfl, hwaits, hreleases, hgoes⟩ | ⟨hwaits, hleans⟩
  · rcases h' with ⟨before', event', after', hsame, hwaits', hreleases', hgoes'⟩ | ⟨hwaits', _⟩
    · obtain ⟨rfl, rfl⟩ := Waits.before_eq hsame hwaits hwaits' hreleases hreleases'
      exact hgoes.unique hgoes'
    · exact absurd hreleases (hwaits' before event after rfl)
  · rcases h' with ⟨before', event', after', rfl, _, hreleases', _⟩ | ⟨_, hleans'⟩
    · exact absurd hreleases' (hwaits before' event' after' rfl)
    · exact hleans.unique hleans'

end

/-! ## One event and one comment -/

def InOrder (comments : List Comment) : Prop :=
  (comments.map Comment.position).Pairwise fun p q => ¬q.before p

namespace Attachment

open List

variable {next : Attachment} {side : Comment ⊕ Comment} {last : Option (NodeId × Position)}
  {sides : List (Comment ⊕ Comment)} {pending : List Comment}

/-- What a node does to one comment. -/
def atNode (t : Tree) (id : NodeId) (position : Position) (c : Comment) :
    Except Fault (Comment ⊕ Comment) :=
  if c.position.line < position.line then .ok (.inl (c.settledOn id .above))
  else if c.position.line = position.line then (c.consider t id position).map .inr
  else .ok (.inr c)

def turn (t : Tree) (last : Option (NodeId × Position)) (c : Comment) :
    AttachEvent → Except Fault (Comment ⊕ Comment)
  | .met id position => atNode t id position c
  | .methodEnd close =>
    match close, last with
    | some close, _ => .ok (atEnd last (some close.line) c)
    | none, some (_, position) => .ok (atEnd last (some position.line) c)
    | none, none => .ok (.inr c)
  | .moduleEnd => .ok (atEnd last none c)

theorem mapM_atNode_later (h : ∀ c ∈ pending, position.line < c.position.line) :
    pending.mapM (atNode t id position) = .ok (pending.map .inr) := by
  induction pending with
  | nil => rfl
  | cons c rest ih =>
    rw [forall_mem_cons] at h
    rw [mapM_cons, ih h.2, atNode, if_neg (by omega), if_neg (by omega)]
    rfl

theorem InOrder.line_le {rest : List Comment} {other : Comment} (h : InOrder (c :: rest))
    (hother : other ∈ rest) :
    c.position.line ≤ other.position.line := by
  have hpair := rel_of_pairwise_cons h (mem_map_of_mem hother)
  simp only [Position.before, Bool.or_eq_true, Bool.and_eq_true, decide_eq_true_eq, not_or] at hpair
  omega

/-- On comments that are in order nothing is missed by stopping early: a node does to each what it
does to it alone. -/
theorem sweep_eq (h : InOrder pending) : sweep t id position pending =
    (pending.mapM (atNode t id position)).map fun sides =>
      (sides.filterMap Sum.getLeft?, sides.filterMap Sum.getRight?) := by
  induction pending with
  | nil => rfl
  | cons c rest ih =>
    have hrest := ih (pairwise_cons.mp h).2
    rw [mapM_cons]
    unfold sweep
    split
    · rename_i hearlier
      rw [hrest, atNode, if_pos hearlier]
      cases rest.mapM (atNode t id position) <;> rfl
    · rename_i hnot
      split
      · rename_i hline
        rw [hrest, atNode, if_neg hnot, if_pos hline]
        cases c.consider t id position with
        | error => rfl
        | ok considered => cases rest.mapM (atNode t id position) <;> rfl
      · rename_i hother
        rw [mapM_atNode_later fun d hd => by have := InOrder.line_le h hd; omega, atNode,
          if_neg hnot, if_neg hother]
        change _ = Except.ok (_, _)
        simp [filterMap_map, Function.comp_def]

theorem step_eq (h : InOrder a.pending) (t : Tree) (event : AttachEvent) :
    a.step t event = (a.pending.mapM fun c => turn t a.last c event).map fun sides =>
      { pending := sides.filterMap Sum.getRight?, settled :=
        a.settled ++ sides.filterMap Sum.getLeft?,
        last := event.met?.or a.last } := by
  have hpure : ∀ f : Comment → Comment ⊕ Comment,
      a.pending.mapM (fun c => (.ok (f c) : Except Fault (Comment ⊕ Comment))) =
        .ok (a.pending.map f) :=
    fun f => mapM_pure
  cases event with
  | met id position =>
    simp only [step, sweep_eq h, turn]
    cases a.pending.mapM (atNode t id position) <;> rfl
  | methodEnd close =>
    cases close with
    | some close =>
      simp only [step, turn, hpure]
      rfl
    | none =>
      cases hlast : a.last with
      | some last =>
        simp only [step, turn, hlast, hpure]
        simp [flush, Except.map, hlast, AttachEvent.met?]
      | none =>
        simp only [step, turn, hlast, hpure]
        cases a
        simp_all [Except.map, AttachEvent.met?, filterMap_map, Function.comp_def]
  | moduleEnd =>
    simp only [step, turn, hpure]
    rfl

theorem asFound_atNode (h : atNode t id position c = .ok side) :
    (either side).asFound = c.asFound := by
  unfold atNode at h
  split at h
  · cases h
    exact c.asFound_settledOn id .above
  · split at h
    · obtain ⟨considered, hconsidered, rfl⟩ := Except.map_eq_ok h
      exact Comment.asFound_consider hconsidered
    · cases h
      rfl

theorem asFound_turn (h : turn t last c event = .ok side) : (either side).asFound = c.asFound := by
  unfold turn at h
  split at h
  · exact asFound_atNode h
  · split at h
    · cases h
      exact asFound_atEnd ..
    · cases h
      exact asFound_atEnd ..
    · cases h
      rfl
  · cases h
    exact asFound_atEnd ..

theorem position_turn (h : turn t last c event = .ok side) :
    (either side).position = c.position := by
  change (either side).asFound.position = c.asFound.position
  rw [asFound_turn h]

/-- Settling and keeping leave comments in the order they had. -/
theorem positions_sublist
    (h : List.Forall₂ (fun c side => (either side).position = c.position) pending sides) :
    ((sides.filterMap Sum.getLeft?).map Comment.position).Sublist (pending.map Comment.position) ∧
      ((sides.filterMap Sum.getRight?).map Comment.position).Sublist
    (pending.map Comment.position) := by
  induction h with
  | nil => exact ⟨.slnil, .slnil⟩
  | @cons c side _ _ hside _ ih =>
    cases side with
    | inl settled =>
      have hsame : settled.position = c.position := hside
      refine ⟨?_, ih.2.cons _⟩
      change List.Sublist (settled.position :: _) (c.position :: _)
      rw [hsame]
      exact ih.1.cons_cons _
    | inr left =>
      have hsame : left.position = c.position := hside
      refine ⟨ih.1.cons _, ?_⟩
      change List.Sublist (left.position :: _) (c.position :: _)
      rw [hsame]
      exact ih.2.cons_cons _

/-! ## Following the pass -/

/-- A comment is settled by the event after some others. -/
def SettledAfter (events : List AttachEvent) (c : Comment) (before : List AttachEvent) : Prop :=
  ∃ event after, events = before ++ event :: after ∧ Waits c before ∧ Releases before c event

/-- One comment is settled before another one, or along with it and stands before it in the
source. -/
def SettledFirst (events : List AttachEvent) (c d : Comment) : Prop :=
  ∃ first second, SettledAfter events c.asFound first ∧ SettledAfter events d.asFound second ∧
    (first.length < second.length ∨ first = second ∧ ¬d.position.before c.position)

theorem SettledAfter.append (h : SettledAfter events c before) (more : List AttachEvent) :
    SettledAfter (events ++ more) c before := by
  obtain ⟨event, after, rfl, hwaits, hreleases⟩ := h
  exact ⟨event, after ++ more, by simp, hwaits, hreleases⟩

theorem SettledAfter.of_released (hwaits : Waits c before)
    (h : Released t (before ++ [event]) c decided) :
    SettledAfter (before ++ [event]) c before := by
  obtain ⟨first, found, after, hsplit, _, hreleases, _⟩ := h
  rcases eq_nil_or_concat after with rfl | ⟨rest, last, rfl⟩
  · obtain ⟨rfl, hlast⟩ := append_inj' hsplit rfl
    cases hlast
    exact ⟨event, [], rfl, hwaits, hreleases⟩
  · have hshort : before ++ [event] = (first ++ found :: rest) ++ [last] := by simpa using hsplit
    obtain ⟨rfl, _⟩ := append_inj' hshort rfl
    exact absurd hreleases (hwaits first found rest rfl)

structure Follows (t : Tree) (before : List AttachEvent) (a : Attachment) : Prop where
  last : a.last = lastMet before
  pending : ∀ c ∈ a.pending, Waits c.asFound before ∧ Leans t c.asFound before c
  settled : ∀ c ∈ a.settled, Released t before c.asFound c
  sorted : InOrder a.pending
  order : a.settled.Pairwise (SettledFirst before)

theorem besides_asFound (c : Comment) (id : NodeId) (position : Position) :
    c.asFound.besides t id position = c.besides t id position := rfl

theorem atNode_leans (hwaits : Waits c.asFound before) (hleans : Leans t c.asFound before c)
    (h : atNode t id position c = .ok side) :
    (∀ d, side = .inl d → Released t (before ++ [.met id position]) c.asFound d) ∧
      ∀ d, side = .inr d → Waits c.asFound (before ++ [.met id position]) ∧
        Leans t c.asFound (before ++ [.met id position]) d := by
  unfold atNode at h
  split at h
  · rename_i hlater
    cases h
    refine ⟨?_, by simp⟩
    rintro d hd
    cases hd
    refine ⟨before, _, [], rfl, hwaits, .node hlater, ?_⟩
    generalize hfound : c.asFound = found at hleans
    cases hleans with
    | free hfree =>
      rw [← hfound]
      exact .above (hfound ▸ hfree)
    | picked hpicks => exact .picked hpicks
  · rename_i hnot
    have hstays : ¬Releases before c.asFound (.met id position) := by
      rintro ⟨hlater⟩
      exact hnot hlater
    split at h
    · rename_i hline
      obtain ⟨considered, hconsidered, rfl⟩ := Except.map_eq_ok h
      refine ⟨by simp, ?_⟩
      rintro d hd
      cases hd
      refine ⟨hwaits.concat hstays, ?_⟩
      unfold Comment.consider at hconsidered
      obtain ⟨⟨anchor, distance⟩, hside, rfl⟩ := Except.map_eq_ok hconsidered
      have hcandidate : Candidate t c.asFound (.met id position) id anchor distance :=
        ⟨position, rfl, hline.symm, hside⟩
      have hsame : ∀ i a d, Candidate t c.asFound (.met id position) i a d → distance = d := by
        rintro i a d ⟨_, hmet, _, hside'⟩
        cases hmet
        rw [besides_asFound, hside] at hside'
        cases hside'
        rfl
      generalize hfound : c.asFound = found at *
      cases hleans with
      | free hfree =>
        have howner : c.owner = none := by
          rw [← hfound]
          rfl
        simp only [howner, Option.isNone_none, Bool.true_or, if_true]
        exact .picked (.of_last hcandidate fun other hother i a d hother' =>
          absurd hother' (hfree other hother i a d))
      | @picked oldId oldAnchor oldDistance hpicks =>
        simp only [Option.isNone_some, Bool.false_or, decide_eq_true_eq]
        split
        · rename_i hcloser
          refine .picked (.of_last hcandidate fun other hother i a d hother' => ?_)
          exact Int.lt_of_lt_of_le hcloser (hpicks.least hother hother')
        · rename_i hfarther
          exact .picked (hpicks.concat fun i a d hother => by have := hsame i a d hother; omega)
    · rename_i hother
      cases h
      refine ⟨by simp, ?_⟩
      rintro d hd
      cases hd
      refine ⟨hwaits.concat hstays, hleans.concat ?_⟩
      rintro i a d ⟨_, hmet, hline, _⟩
      cases hmet
      exact hother hline.symm

theorem waits_leans_end (hend : event.met? = none) (hnot : ¬Releases before c.asFound event)
    (hwaits : Waits c.asFound before) (hleans : Leans t c.asFound before c) :
    Waits c.asFound (before ++ [event]) ∧ Leans t c.asFound (before ++ [event]) c := by
  refine ⟨hwaits.concat hnot, hleans.concat ?_⟩
  rintro i a d ⟨_, rfl, _⟩
  cases hend

theorem atEnd_leans {through : Option Int} (hlast : lastMet before = last)
    (hend : event.met? = none) (hreleases : ∀ c, Releases before c event ↔ (lastMet before).isSome ∧
      ∀ line ∈ through, c.position.line ≤ line) (hwaits : Waits c.asFound before)
    (hleans : Leans t c.asFound before c) :
    (∀ d, atEnd last through c = .inl d → Released t (before ++ [event]) c.asFound d) ∧
      ∀ d, atEnd last through c = .inr d → Waits c.asFound (before ++ [event]) ∧
        Leans t c.asFound (before ++ [event]) d := by
  have hbounds : (through.any fun line => line < c.position.line) = true ↔
      ¬∀ line ∈ through, c.asFound.position.line ≤ line := by
    cases through <;> simp [Comment.asFound, Comment.unclaimed]
  unfold atEnd
  split
  · rename_i hbeyond
    refine ⟨by simp, ?_⟩
    rintro d hd
    cases hd
    apply waits_leans_end hend _ hwaits hleans
    rw [hreleases]
    rintro ⟨_, hreach⟩
    exact hbounds.mp hbeyond hreach
  · rename_i hwithin
    have hreach := not_not.mp (mt hbounds.mpr hwithin)
    split
    · rename_i owner howner
      refine ⟨?_, by simp⟩
      rintro d hd
      cases hd
      generalize hfound : c.asFound = found at *
      cases hleans with
      | free =>
        rw [← hfound] at howner
        cases howner
      | picked hpicks =>
        obtain ⟨position, hmet⟩ := hpicks.exists_met
        have hsome := lastMet_isSome_iff.mpr ⟨_, position, hmet⟩
        exact ⟨before, event, [], rfl, hwaits, (hreleases _).mpr ⟨hsome, hreach⟩, .picked hpicks⟩
    · rename_i id position howner
      refine ⟨?_, by simp⟩
      rintro d hd
      cases hd
      have hgoal : c.settledOn id .right = { c with owner := some id, anchor := .right } := by
        simp [Comment.settledOn, howner]
      rw [hgoal]
      generalize hfound : c.asFound = found at *
      cases hleans with
      | free hfree =>
        have hsome : (lastMet before).isSome := by
          rw [hlast]
          rfl
        exact ⟨before, event, [], rfl, hwaits, (hreleases _).mpr ⟨hsome, hreach⟩,
          .behind hend hlast hfree⟩
      | picked => cases howner
    · refine ⟨by simp, ?_⟩
      rintro d hd
      cases hd
      apply waits_leans_end hend _ hwaits hleans
      rw [hreleases]
      rintro ⟨hsome, _⟩
      rw [hlast] at hsome
      cases hsome

theorem turn_leans (hwaits : Waits c.asFound before) (hleans : Leans t c.asFound before c)
    (h : turn t (lastMet before) c event = .ok side) :
    (∀ d, side = .inl d → Released t (before ++ [event]) c.asFound d) ∧
      ∀ d, side = .inr d → Waits c.asFound (before ++ [event]) ∧
        Leans t c.asFound (before ++ [event]) d := by
  cases event with
  | met id position => exact atNode_leans hwaits hleans h
  | methodEnd close =>
    cases close with
    | some close =>
      cases h
      apply atEnd_leans rfl rfl _ hwaits hleans
      intro c
      constructor
      · rintro ⟨⟩
        simp_all
      · rintro ⟨hsome, hreach⟩
        obtain ⟨last, hlast⟩ := Option.isSome_iff_exists.mp hsome
        exact .method hlast (hreach _ rfl)
    | none =>
      cases hlast : lastMet before with
      | some last =>
        rw [hlast] at h
        cases h
        apply atEnd_leans hlast rfl _ hwaits hleans
        intro c
        constructor
        · rintro ⟨⟩
          simp_all
        · rintro ⟨_, hreach⟩
          exact .method hlast (hreach _ rfl)
      | none =>
        rw [hlast] at h
        cases h
        refine ⟨by simp, ?_⟩
        rintro d hd
        cases hd
        apply waits_leans_end rfl _ hwaits hleans
        rintro ⟨⟩
        simp_all
  | moduleEnd =>
    cases h
    apply atEnd_leans rfl rfl _ hwaits hleans
    intro c
    constructor
    · rintro ⟨⟩
      simp_all
    · rintro ⟨hsome, _⟩
      obtain ⟨last, hlast⟩ := Option.isSome_iff_exists.mp hsome
      exact .module hlast

theorem exists_turns (hsorted : InOrder a.pending) (h : a.step t event = .ok next) : ∃ sides,
    List.Forall₂ (fun c side => turn t a.last c event = .ok side) a.pending sides ∧
      next.pending = sides.filterMap Sum.getRight? ∧
        next.settled = a.settled ++ sides.filterMap Sum.getLeft? ∧
        next.last = event.met?.or a.last := by
  rw [step_eq hsorted] at h
  obtain ⟨sides, hsides, rfl⟩ := Except.map_eq_ok h
  exact ⟨sides, forall₂_of_mapM hsides, rfl, rfl, rfl⟩

theorem exists_turn (hsorted : InOrder a.pending) (h : a.step t event = .ok next)
    (hc : c ∈ a.pending) :
    ∃ side, turn t a.last c event = .ok side ∧ (∀ d, side = .inl d → d ∈ next.settled) ∧
      ∀ d, side = .inr d → d ∈ next.pending := by
  obtain ⟨sides, hall, hpending, hsettled, _⟩ := exists_turns hsorted h
  obtain ⟨side, hside, hturn⟩ := exists_of_forall₂ hall.flip hc
  refine ⟨side, hturn, ?_, ?_⟩
  · rintro d rfl
    rw [hsettled]
    exact mem_append_right _ (mem_filterMap.mpr ⟨_, hside, rfl⟩)
  · rintro d rfl
    rw [hpending]
    exact mem_filterMap.mpr ⟨_, hside, rfl⟩

theorem Follows.step (h : Follows t before a) (hstep : a.step t event = .ok next) :
    Follows t (before ++ [event]) next := by
  obtain ⟨sides, hall, hpending, hsettled, hlast⟩ := exists_turns h.sorted hstep
  -- Each side comes from a comment that was pending, and goes by the rule.
  have hturn : ∀ side ∈ sides, ∃ c ∈ a.pending, (either side).asFound = c.asFound ∧
      (∀ d, side = .inl d → Released t (before ++ [event]) c.asFound d) ∧
        ∀ d, side = .inr d → Waits c.asFound (before ++ [event]) ∧
          Leans t c.asFound (before ++ [event]) d := by
    intro side hside
    obtain ⟨c, hc, hturn⟩ := exists_of_forall₂ hall hside
    refine ⟨c, hc, asFound_turn hturn, ?_⟩
    rw [h.last] at hturn
    exact turn_leans (h.pending c hc).1 (h.pending c hc).2 hturn
  have hleft : ∀ d ∈ sides.filterMap Sum.getLeft?,
      Released t (before ++ [event]) d.asFound d ∧
        SettledAfter (before ++ [event]) d.asFound before := by
    intro d hd
    obtain ⟨side, hside, hd⟩ := mem_filterMap.mp hd
    rw [Sum.getLeft?_eq_some_iff] at hd
    obtain ⟨c, hc, hsame, hreleased, _⟩ := hturn side hside
    rw [hd] at hsame
    have hfound : d.asFound = c.asFound := hsame
    rw [hfound]
    exact ⟨hreleased d hd, .of_released (h.pending c hc).1 (hreleased d hd)⟩
  obtain ⟨hleftOrder, hrightOrder⟩ :=
    positions_sublist (hall.imp fun _ _ hside => position_turn hside)
  constructor
  · rw [hlast, h.last]
    cases event with
    | met id position => exact (lastMet_met before id position).symm
    | methodEnd => exact (lastMet_end rfl before).symm
    | moduleEnd => exact (lastMet_end rfl before).symm
  · intro d hd
    rw [hpending] at hd
    obtain ⟨side, hside, hd⟩ := mem_filterMap.mp hd
    rw [Sum.getRight?_eq_some_iff] at hd
    obtain ⟨c, _, hsame, _, hwaits⟩ := hturn side hside
    rw [hd] at hsame
    have hfound : d.asFound = c.asFound := hsame
    rw [hfound]
    exact hwaits d hd
  · intro d hd
    rw [hsettled] at hd
    rcases mem_append.mp hd with hold | hnew
    · exact (h.settled d hold).append
    · exact (hleft d hnew).1
  · rw [hpending]
    exact h.sorted.sublist hrightOrder
  · rw [hsettled, pairwise_append]
    refine ⟨h.order.imp ?_, ?_, ?_⟩
    · rintro c d ⟨first, second, hfirst, hsecond, horder⟩
      exact ⟨first, second, hfirst.append _, hsecond.append _, horder⟩
    · refine (pairwise_map.mp (h.sorted.sublist hleftOrder)).imp_of_mem fun hc hd horder => ?_
      exact ⟨before, before, (hleft _ hc).2, (hleft _ hd).2, Or.inr ⟨rfl, horder⟩⟩
    · intro c hc d hd
      obtain ⟨first, found, after, hsplit, hwaits, hreleases, _⟩ := h.settled c hc
      refine ⟨first, before, SettledAfter.append ⟨found, after, hsplit, hwaits, hreleases⟩ _,
        (hleft d hd).2, Or.inl ?_⟩
      rw [hsplit]
      simp

theorem Follows.run (h : Follows t before a)
    (hrun : events.foldlM (Attachment.step t) a = .ok next) :
    Follows t (before ++ events) next ∧ next.known.Perm a.known := by
  induction events generalizing before a with
  | nil =>
    cases hrun
    exact ⟨by simpa using h, .refl _⟩
  | cons event rest ih =>
    rw [foldlM_cons] at hrun
    obtain ⟨middle, hstep, hrest⟩ := Except.bind_eq_ok hrun
    obtain ⟨hfollows, hknown⟩ := ih (h.step hstep) hrest
    exact ⟨by simpa using hfollows, hknown.trans (known_step hstep)⟩

theorem inOrder_ofComments (comments : List Comment) : InOrder (ofComments comments).pending := by
  rw [InOrder, pairwise_map]
  refine List.Pairwise.imp ?_ (Comment.pairwise_sorted ?_ ?_ comments)
  · intro c d hcd
    simpa using hcd
  · intro b c d
    simp only [Position.before, Bool.not_eq_true', Bool.or_eq_false_iff, Bool.and_eq_false_iff,
      decide_eq_false_iff_not, beq_eq_false_iff_ne]
    omega
  · intro c d
    simp only [Position.before, Bool.not_eq_true', Bool.or_eq_false_iff, Bool.and_eq_false_iff,
      decide_eq_false_iff_not, beq_eq_false_iff_ne]
    omega

theorem follows_ofComments (h : ∀ c ∈ comments, c.asFound = c) :
    Follows t [] (ofComments comments) := by
  constructor
  · rfl
  · intro c hc
    rw [h c ((Comment.sorted_perm _ comments).subset hc)]
    exact ⟨by simp [Waits], .free (by simp)⟩
  · intro c hc
    cases hc
  · exact inOrder_ofComments comments
  · exact .nil

/-! ## Runs that end -/

theorem exists_step (hsorted : InOrder a.pending)
    (h : ∀ c ∈ a.pending, ∃ side, turn t a.last c event = .ok side) :
    ∃ next, a.step t event = .ok next := by
  have hsides : ∃ sides, a.pending.mapM (fun c => turn t a.last c event) = .ok sides := by
    generalize a.pending = pending at h
    induction pending with
    | nil => exact ⟨[], rfl⟩
    | cons c rest ih =>
      rw [forall_mem_cons] at h
      obtain ⟨side, hside⟩ := h.1
      obtain ⟨sides, hrest⟩ := ih h.2
      exact ⟨side :: sides, by simp [mapM_cons, hside, hrest, bind, Except.bind, pure, Except.pure]⟩
  obtain ⟨sides, hsides⟩ := hsides
  rw [step_eq hsorted, hsides]
  exact ⟨_, rfl⟩

theorem exists_turn_of_measurable
    (h : ∀ id position, event = .met id position → position.line = c.position.line →
      ∃ side, c.besides t id position = .ok side)
    (last : Option (NodeId × Position)) : ∃ side, turn t last c event = .ok side := by
  cases event with
  | met id position =>
    simp only [turn, atNode]
    split
    · exact ⟨_, rfl⟩
    · split
      · rename_i hline
        obtain ⟨side, hside⟩ := h id position rfl hline.symm
        rw [Comment.consider, hside]
        exact ⟨_, rfl⟩
      · exact ⟨_, rfl⟩
  | methodEnd close =>
    simp only [turn]
    split <;> exact ⟨_, rfl⟩
  | moduleEnd => exact ⟨_, rfl⟩

theorem besides_of_turn (h : turn t last c (.met id position) = .ok side)
    (hline : position.line = c.position.line) :
    ∃ side, c.besides t id position = .ok side := by
  rw [turn, atNode, if_neg (by omega), if_pos hline.symm] at h
  obtain ⟨considered, hconsidered, _⟩ := Except.map_eq_ok h
  obtain ⟨side, hside, _⟩ := Except.map_eq_ok hconsidered
  exact ⟨side, hside⟩

theorem exists_run (h : Follows t before a) (hknown : a.known.Perm comments)
    (hevents : events = before ++ rest) (hmeasurable : ∀ c ∈ comments, Measurable t events c) :
    ∃ next, rest.foldlM (Attachment.step t) a = .ok next := by
  induction rest generalizing before a with
  | nil => exact ⟨a, rfl⟩
  | cons event rest ih =>
    have hturn : ∀ c ∈ a.pending, ∃ side, turn t a.last c event = .ok side := by
      intro c hc
      apply exists_turn_of_measurable
      rintro id position rfl hline
      have hmem : c.asFound ∈ comments :=
        hknown.subset (mem_map_of_mem (mem_append_right _ hc))
      exact hmeasurable c.asFound hmem before id position rest hevents (h.pending c hc).1 hline
    obtain ⟨next, hnext⟩ := exists_step h.sorted hturn
    obtain ⟨last, hlast⟩ :=
      ih (h.step hnext) ((known_step hnext).trans hknown) (by simpa using hevents)
    exact ⟨last, by rw [foldlM_cons, hnext]; exact hlast⟩

theorem measurable_of_run (h : Follows t [] a) (hknown : a.known.Perm comments)
    (hrun : events.foldlM (Attachment.step t) a = .ok next) (hc : c ∈ comments) :
      Measurable t events c := by
  intro first id position after hevents hwaits hline
  rw [hevents, foldlM_append] at hrun
  obtain ⟨middle, hfirst, hlater⟩ := Except.bind_eq_ok hrun
  rw [foldlM_cons] at hlater
  obtain ⟨later, hstep, _⟩ := Except.bind_eq_ok hlater
  obtain ⟨hfollows, hperm⟩ := h.run hfirst
  obtain ⟨d, hd, rfl⟩ := mem_map.mp ((hperm.trans hknown).symm.subset hc)
  rcases mem_append.mp hd with hreleased | hpending
  · obtain ⟨before, event, rest, hsplit, _, hreleases, _⟩ := hfollows.settled d hreleased
    exact absurd hreleases (hwaits before event rest hsplit)
  · obtain ⟨side, hturn, _⟩ := exists_turn hfollows.sorted hstep hpending
    show ∃ side, d.besides t id position = .ok side
    exact besides_of_turn hturn hline

theorem closer_of_step (hsorted : InOrder a.pending) (h : a.step t event = .ok next)
    (hc : c ∈ a.pending) (howner : c.owner.isSome) :
    c ∈ next.settled ++ next.pending ∨
      ∃ closer ∈ next.pending, closer.asFound = c.asFound ∧ closer.distance < c.distance := by
  obtain ⟨side, hturn, hreleased, hpending⟩ := exists_turn hsorted h hc
  obtain ⟨owner, howner⟩ := Option.isSome_iff_exists.mp howner
  have hon : ∀ id anchor, c.settledOn id anchor = c := by simp [Comment.settledOn, howner]
  have hend : ∀ last through, atEnd last through c = .inl c ∨ atEnd last through c = .inr c := by
    intro last through
    unfold atEnd
    split
    · exact .inr rfl
    · simp [howner]
  have hkeeps : side = .inl c ∨ side = .inr c → c ∈ next.settled ++ next.pending := by
    rintro (rfl | rfl)
    · exact mem_append_left _ (hreleased c rfl)
    · exact mem_append_right _ (hpending c rfl)
  cases event with
  | met id position =>
    simp only [turn, atNode, hon] at hturn
    split at hturn
    · cases hturn
      exact .inl (hkeeps (.inl rfl))
    · split at hturn
      · obtain ⟨considered, hconsidered, rfl⟩ := Except.map_eq_ok hturn
        have hfound := Comment.asFound_consider hconsidered
        obtain ⟨⟨anchor, distance⟩, _, rfl⟩ := Except.map_eq_ok hconsidered
        simp only [howner, Option.isNone_some, Bool.false_or, decide_eq_true_eq] at hpending hkeeps
        split at hpending
        · rename_i hcloser
          exact .inr ⟨_, hpending _ rfl, rfl, hcloser⟩
        · exact .inl (mem_append_right _ (hpending c rfl))
      · cases hturn
        exact .inl (hkeeps (.inr rfl))
  | methodEnd close =>
    simp only [turn] at hturn
    split at hturn
    · cases hturn
      exact .inl (hkeeps (hend ..))
    · cases hturn
      exact .inl (hkeeps (hend ..))
    · cases hturn
      exact .inl (hkeeps (.inr rfl))
  | moduleEnd =>
    cases hturn
    exact .inl (hkeeps (hend ..))

end Attachment

/-! ## The events of a tree -/

namespace Tree

open List

variable {a : NodeId}

theorem mem_metEvent (h : .met a position ∈ t.metEvent id) :
    a = id ∧ t.position id = some position := by
  unfold metEvent at h
  split at h
  · rename_i found hfound
    rw [mem_singleton] at h
    cases h
    exact ⟨rfl, hfound⟩
  · cases h

theorem of_mem_attachEventsWithin {depth : Nat}
    (h : .met a position ∈ t.attachEventsWithin depth id) :
    t.position a = some position ∧ t.kind a ≠ .block ∧ t.kind a ≠ .module := by
  induction depth generalizing id with
  | zero => cases h
  | succ depth ih =>
    have hinner :
        .met a position ∈ ((t.children id).filter fun child => t.parent child == some id).flatMap
        (t.attachEventsWithin depth) → t.position a = some position ∧ t.kind a ≠ .block ∧
        t.kind a ≠ .module := by
      intro hmem
      obtain ⟨child, _, hchild⟩ := mem_flatMap.mp hmem
      exact ih hchild
    simp only [attachEventsWithin] at h
    cases hshape : t.shape id <;> rw [hshape] at h <;>
      simp only [mem_append, mem_singleton, reduceCtorEq, or_false] at h
    case module | block => exact hinner h
    all_goals
      rcases h with hmet | hmem
      · obtain ⟨rfl, hposition⟩ := mem_metEvent hmet
        refine ⟨hposition, ?_, ?_⟩ <;> simp [kind, hshape, Shape.kind]
      · exact hinner hmem

theorem attachEvents_of_module (h : t.kind t.root = .module) :
    ∃ inner, t.attachEvents = inner ++ [.moduleEnd] := by
  unfold attachEvents attachEventsWithin
  unfold kind at h
  cases hshape : t.shape t.root <;> rw [hshape] at h <;> cases h
  exact ⟨_, rfl⟩

theorem not_met_of_waits (h : t.kind t.root = .module) (hwaits : Waits c t.attachEvents)
    (id : NodeId) (position : Position) : .met id position ∉ t.attachEvents := by
  intro hmem
  obtain ⟨inner, hevents⟩ := attachEvents_of_module h
  rw [hevents] at hmem
  have hmet : .met id position ∈ inner := by simpa using hmem
  obtain ⟨last, hlast⟩ := Option.isSome_iff_exists.mp (lastMet_isSome_iff.mpr ⟨id, position, hmet⟩)
  exact hwaits inner .moduleEnd [] hevents (.module hlast)

theorem exists_met_of_decides (h : Decides t events c decided) (hfree : c.owner = none)
    (howner : decided.owner = some id) : ∃ position, .met id position ∈ events := by
  rcases h with ⟨before, event, after, rfl, _, _, hgoes⟩ | ⟨_, hleans⟩
  · cases hgoes with
    | picked hpicks =>
      cases howner
      obtain ⟨position, hmem⟩ := hpicks.exists_met
      exact ⟨position, mem_append_left _ hmem⟩
    | @above found position =>
      cases howner
      exact ⟨position, by simp⟩
    | @behind _ last _ hlast =>
      cases howner
      obtain ⟨event, hmem, hmet⟩ := mem_filterMap.mp (mem_of_getLast? hlast)
      cases event <;> cases hmet
      exact ⟨_, mem_append_left _ hmem⟩
  · cases hleans with
    | free =>
      rw [hfree] at howner
      cases howner
    | picked hpicks =>
      cases howner
      exact hpicks.exists_met

end Tree

/-! ## The pass -/

namespace Pass

open List

variable {s : Session} {b : Attachment}

theorem attachStep_ends (h : a.step s.tree event = .ok b) :
    Ends (attachStep a event) s fun next after => next = b ∧ after.tree = s.tree := by
  apply Ends.bind
  apply Ends.tree
  rw [h]
  dsimp only
  split
  · split
    · exact Ends.bind ⟨(), _, rfl, Ends.pure ⟨rfl, rfl⟩⟩
    · exact Ends.pure ⟨rfl, rfl⟩
  · exact Ends.pure ⟨rfl, rfl⟩

theorem foldlM_attachStep_yields : Yields (events.foldlM attachStep a) s fun b after =>
    events.foldlM (Attachment.step s.tree) a = .ok b ∧ after.tree = s.tree := by
  induction events generalizing a s with
  | nil => exact Yields.pure ⟨rfl, rfl⟩
  | cons event rest ih =>
    rw [foldlM_cons]
    apply Yields.bind
    refine (attachStep_yields a event).mono ?_
    rintro next middle ⟨htree, hstep⟩
    refine ih.mono ?_
    rintro b after ⟨hrest, hafter⟩
    rw [foldlM_cons, hstep, ← htree]
    exact ⟨hrest, hafter⟩

theorem foldlM_attachStep_ends (h : events.foldlM (Attachment.step s.tree) a = .ok b) :
    Ends (events.foldlM attachStep a) s fun result after => result = b ∧ after.tree = s.tree := by
  induction events generalizing a s with
  | nil =>
    cases h
    exact Ends.pure ⟨rfl, rfl⟩
  | cons event rest ih =>
    rw [foldlM_cons] at h ⊢
    obtain ⟨next, hstep, hrest⟩ := Except.bind_eq_ok h
    apply Ends.bind
    apply (attachStep_ends hstep).mono
    rintro _ middle ⟨rfl, htree⟩
    apply (ih (htree ▸ hrest)).mono
    rintro _ after ⟨rfl, hafter⟩
    exact ⟨rfl, hafter.trans htree⟩

theorem attach_run {result : List Comment} {after : Session}
    (h : attach comments s = .ok result after) :
    ∃ a, s.tree.attachEvents.foldlM (Attachment.step s.tree) (.ofComments comments) = .ok a ∧
      result = a.comments ∧ after.tree = s.tree.giveComments a.settled := by
  have hyields : Yields (attach comments) s fun result after => ∃ a,
      s.tree.attachEvents.foldlM (Attachment.step s.tree) (.ofComments comments) = .ok a ∧
        result = a.comments ∧ after.tree = s.tree.giveComments a.settled := by
    apply Yields.read
    apply Yields.bind
    refine foldlM_attachStep_yields.mono ?_
    rintro a middle ⟨hevents, htree⟩
    exact Yields.bind (Yields.change (Yields.pure ⟨a, hevents, rfl, htree ▸ rfl⟩))
  exact hyields result after h

theorem attach_ends
    (h : s.tree.attachEvents.foldlM (Attachment.step s.tree) (.ofComments comments) = .ok a) :
    ∃ result after, attach comments s = .ok result after := by
  have hends : Ends (attach comments) s fun _ _ => True := by
    apply Ends.bind
    apply Ends.tree
    apply Ends.bind
    apply (foldlM_attachStep_ends h).mono
    rintro _ middle ⟨rfl, _⟩
    exact Ends.bind (Ends.change (Ends.pure trivial))
  obtain ⟨result, after, hrun, _⟩ := hends
  exact ⟨result, after, hrun⟩

end Pass

def Comment.numbered (found : List (String × CommentKind × Position)) : List Comment :=
  found.mapIdx fun i c => .unclaimed i c.1 c.2.1 c.2.2

theorem asFound_numbered {found : List (String × CommentKind × Position)}
    (h : c ∈ Comment.numbered found) :
    c.asFound = c := by
  obtain ⟨i, _, rfl⟩ := mem_mapIdx.mp h
  rfl

theorem pairwise_numbered (found : List (String × CommentKind × Position)) :
    (Comment.numbered found).Pairwise fun a b => a.index < b.index := by
  rw [pairwise_iff_getElem]
  intro i j hi hj hij
  simpa [Comment.numbered, Comment.unclaimed] using hij

/-- The comments that a node gets: those that the rule settles on it, each once, in the order of
settlement. -/
structure Given (t : Tree) (result : List Comment) (id : NodeId) (given : List Comment) : Prop where
  once : (given.map Comment.index).Nodup
  mem_iff : ∀ c, c ∈ given ↔ c ∈ result ∧ c.owner = some id ∧ Released t t.attachEvents c.asFound c
  order : given.Pairwise (Attachment.SettledFirst t.attachEvents)

namespace Attachment.Follows

variable {result : List Comment}

theorem decides (h : Follows t events a) (hc : c ∈ a.comments) : Decides t events c.asFound c := by
  rcases mem_append.mp (a.perm_comments.subset hc) with hreleased | hpending
  · exact .inl (h.settled c hreleased)
  · exact .inr (h.pending c hpending)

theorem mem_settled_iff (h : Follows t events a) :
    c ∈ a.settled ↔ c ∈ a.comments ∧ Released t events c.asFound c := by
  constructor
  · intro hc
    exact ⟨a.perm_comments.symm.subset (mem_append_left _ hc), h.settled c hc⟩
  · rintro ⟨hc, before, event, after, hsplit, _, hreleases, _⟩
    rcases mem_append.mp (a.perm_comments.subset hc) with hsettled | hpending
    · exact hsettled
    · exact absurd hreleases ((h.pending c hpending).1 before event after hsplit)

theorem given (h : Follows t t.attachEvents a) (hnodup : (a.settled.map Comment.index).Nodup)
    (id : NodeId) :
    Given t a.comments id (a.settled.filter fun c => c.owner == some id) where
  once := hnodup.sublist (filter_sublist.map _)
  mem_iff := by
    intro c
    rw [mem_filter, h.mem_settled_iff, beq_iff_eq]
    tauto
  order := h.order.sublist filter_sublist

end Attachment.Follows

theorem Tree.has_of_met {id : NodeId} (h : .met id position ∈ t.attachEvents) : t.Has id := by
  by_contra hnot
  have hposition := (of_mem_attachEventsWithin h).1
  rw [Tree.position, node_of_not_has hnot] at hposition
  cases hposition

end UnitySharp
