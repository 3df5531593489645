import UnitySharp.Proofs.Pass.Rewriting
import UnitySharp.Proofs.Pass.Turning
import UnitySharp.Proofs.Tree.Amending
import UnitySharp.Proofs.Tree.WellLinked

/-!
# Expanded assignments

An `Eval` of assignments is taken apart step by step, and every step is amended into a statement of
its own.  Until the block of these statements is put in, links are loose, but only within the old
statement.
-/

namespace UnitySharp

open UnitySharp.Tree Pass List

variable {t u : Tree} {id a : NodeId} {α : Type}

/-! ## Single nodes as parts -/

structure Strewn (t : Tree) (tops : List NodeId) (parts : List Part) : Prop where
  nodup : (parts.map Part.node).Nodup
  beneath : ∀ part ∈ parts, ∃ top ∈ tops, t.Beneath top part.node
  alone : ∀ part ∈ parts, part = .single part.node ∨ (t.node part.node).kids = []

namespace Strewn

variable {tops others : List NodeId} {parts more : List Part}

theorem nil (t : Tree) (tops : List NodeId) : Strewn t tops [] :=
  ⟨nodup_nil, by simp, by simp⟩

theorem leaf (h : (t.node id).kids = []) : Strewn t [id] [.whole id] where
  nodup := nodup_singleton _
  beneath := by
    intro part hpart
    rw [mem_singleton.mp hpart]
    exact ⟨id, mem_cons_self, Beneath.refl⟩
  alone := by
    intro part hpart
    rw [mem_singleton.mp hpart]
    exact Or.inr h

theorem mono (h : Strewn t tops parts)
    (hsub : ∀ top ∈ tops, ∃ other ∈ others, t.Beneath other top) :
    Strewn t others parts where
  nodup := h.nodup
  beneath := by
    intro part hpart
    obtain ⟨top, htop, hbelow⟩ := h.beneath part hpart
    obtain ⟨other, hother, habove⟩ := hsub top htop
    exact ⟨other, hother, habove.trans hbelow⟩
  alone := h.alone

theorem append (h : Strewn t tops parts) (hmore : Strewn t others more)
    (hapart : ∀ a ∈ tops, ∀ b ∈ others, t.Apart a b) :
    Strewn t (tops ++ others) (parts ++ more) where
  nodup := by
    rw [map_append]
    refine nodup_append.mpr ⟨h.nodup, hmore.nodup, ?_⟩
    intro a ha b hb heq
    obtain ⟨x, hx, rfl⟩ := mem_map.mp ha
    obtain ⟨y, hy, rfl⟩ := mem_map.mp hb
    obtain ⟨top, htop, hbelow⟩ := h.beneath x hx
    obtain ⟨other, hother, hbelow'⟩ := hmore.beneath y hy
    exact hapart top htop other hother _ hbelow (heq ▸ hbelow')
  beneath := by
    intro part hpart
    rcases mem_append.mp hpart with hpart | hpart
    · obtain ⟨top, htop, hbelow⟩ := h.beneath part hpart
      exact ⟨top, mem_append_left _ htop, hbelow⟩
    · obtain ⟨top, htop, hbelow⟩ := hmore.beneath part hpart
      exact ⟨top, mem_append_right _ htop, hbelow⟩
  alone := by
    intro part hpart
    rcases mem_append.mp hpart with hpart | hpart
    · exact h.alone part hpart
    · exact hmore.alone part hpart

theorem cons (h : Strewn t tops parts) (hid : t.Intact id)
    (htops : ∀ top ∈ tops, top ∈ t.children id) :
    Strewn t [id] (.single id :: parts) where
  nodup := by
    refine nodup_cons.mpr ⟨fun hmem => ?_, h.nodup⟩
    obtain ⟨part, hpart, heq⟩ := mem_map.mp hmem
    obtain ⟨top, htop, hbelow⟩ := h.beneath part hpart
    rw [heq] at hbelow
    exact hid.not_beneath_of_child (htops top htop) hbelow
  beneath := by
    intro part hpart
    rcases mem_cons.mp hpart with rfl | hpart
    · exact ⟨id, mem_cons_self, Beneath.refl⟩
    · obtain ⟨top, htop, hbelow⟩ := h.beneath part hpart
      exact ⟨id, mem_cons_self, hbelow.below_child (htops top htop)⟩
  alone := by
    intro part hpart
    rcases mem_cons.mp hpart with rfl | hpart
    · exact Or.inl rfl
    · exact h.alone part hpart

theorem flatten {items : List α} {f : α → List Part}
    (h : List.Forall₂ (fun top item => Strewn t [top] (f item)) tops items)
    (hapart : tops.Pairwise t.Apart) :
    Strewn t tops (items.flatMap f) := by
  induction h with
  | nil => exact nil t []
  | @cons top item tops items hfirst hrest ih =>
    obtain ⟨htop, hrestApart⟩ := pairwise_cons.mp hapart
    refine hfirst.append (ih hrestApart) ?_
    intro a ha b hb
    rw [mem_singleton.mp ha]
    exact htop b hb

theorem covers_eq (h : Strewn t tops parts)
    (hleaves : ∀ part ∈ parts, (t.node part.node).kids = [] → (u.node part.node).kids = [])
    {part : Part} (hpart : part ∈ parts) (hcovers : part.Covers u a) : a = part.node := by
  rcases h.alone part hpart with hsingle | hleaf
  · rw [hsingle] at hcovers
    exact hcovers.1
  · cases part with
    | single id => exact hcovers.1
    | whole id =>
      rcases hcovers.1.eq_or_child with heq | ⟨child, hchild, _⟩
      · exact heq
      · rw [children, Node.children,
          show (u.node id).kids = [] from hleaves _ hpart hleaf] at hchild
        exact absurd hchild (by simp [allKids_nil])

theorem ready (h : Strewn t tops parts) (htops : ∀ top ∈ tops, t.Intact top)
    (hslots : ∀ a, t.HasSlot a → u.HasSlot a)
    (hleaves : ∀ part ∈ parts, (t.node part.node).kids = [] → (u.node part.node).kids = []) :
    PartsReady u parts where
  ready := by
    intro part hpart
    obtain ⟨top, htop, hbelow⟩ := h.beneath part hpart
    have hslot := hslots _ ((htops top htop).beneath hbelow).hasSlot
    cases part with
    | single id => exact hslot
    | whole id =>
      rcases h.alone _ hpart with hbad | hleaf
      · exact absurd hbad (by simp)
      · have hleaf' : u.children id = [] := congrArg allKids (hleaves _ hpart hleaf)
        have hintact : u.Intact id :=
          .intro hslot (by simp [hleaf']) (by simp [hleaf']) (by simp [hleaf'])
        exact hintact.ready
  apart := by
    have hnodup := h.nodup
    rw [List.Nodup, pairwise_map] at hnodup
    refine hnodup.imp_of_mem ?_
    intro x y hx hy hne a hxa hya
    exact hne ((h.covers_eq hleaves hx hxa).symm.trans (h.covers_eq hleaves hy hya))

theorem of_same (h : Strewn u [id] parts) (hsame : t.SameBeneath u id) : Strewn t [id] parts := by
  have hchildren : ∀ a, t.Beneath id a → u.children a = t.children a := fun a ha =>
    congrArg allKids (hsame a ha).1
  have hbelow : ∀ part ∈ parts, t.Beneath id part.node := by
    intro part hpart
    obtain ⟨top, htop, hbelow⟩ := h.beneath part hpart
    rw [mem_singleton.mp htop] at hbelow
    exact hbelow.of_transfer hchildren
  refine ⟨h.nodup, fun part hpart => ⟨id, mem_cons_self, hbelow part hpart⟩, fun part hpart => ?_⟩
  rw [← (hsame _ (hbelow part hpart)).1]
  exact h.alone part hpart

end Strewn

namespace ValueType

variable {f : NodeId → Except Fault Draft} {kids : Kids NodeId} {s : Tree} {locals : Locals}
  {draft leftDraft rightDraft : Draft} {origin : Option NodeId} {term : Term} {symbol : Symbol}
  {expression step side left right : NodeId} {before sides : List NodeId} {expansion : Expansion}
  {middle : Session}
  {amiss : Prop} {name : String} {bound : Option Symbol} {type : Option Ty}
  {third : Option (Option Ty)}

/-! ## Renamed subtrees -/

theorem occupants_of_mapM {f : NodeId → Except Fault Draft} {occupants : Occupants NodeId}
    {drafts : Occupants Draft} (h : occupants.mapM f = .ok drafts) :
    Occupants.Rel (fun draft c => f c = .ok draft) drafts occupants := by
  cases occupants with
  | empty =>
    cases h
    exact .empty
  | one child =>
    obtain ⟨draft, hdraft, h⟩ := Except.bind_eq_ok h
    cases h
    exact .one hdraft
  | many children =>
    obtain ⟨results, hresults, h⟩ := Except.bind_eq_ok h
    cases h
    exact .many (forall₂_of_mapM hresults).flip

theorem kids_of_mapM {drafts : Kids Draft}
    (h : kids.mapM (fun entry => do .ok (entry.1, ← entry.2.mapM f)) = .ok drafts) :
    KidsRel (fun draft c => f c = .ok draft) drafts kids := by
  refine (forall₂_of_mapM h).flip.imp fun result entry hentry => ?_
  obtain ⟨found, hfound, hresult⟩ := Except.bind_eq_ok hentry
  cases hresult
  exact ⟨rfl, occupants_of_mapM hfound⟩

theorem exists_mapM {β : Type} {f : α → Except Fault β} {items : List α}
    (h : ∀ item ∈ items, ∃ result, f item = .ok result) : ∃ results,
      items.mapM f = .ok results := by
  induction items with
  | nil => exact ⟨[], rfl⟩
  | cons item rest ih =>
    rw [forall_mem_cons] at h
    obtain ⟨first, hfirst⟩ := h.1
    obtain ⟨others, hothers⟩ := ih h.2
    refine ⟨first :: others, ?_⟩
    rw [mapM_cons, hfirst, hothers]
    rfl

theorem exists_kids_mapM (h : ∀ c ∈ allKids kids, ∃ draft, f c = .ok draft) :
    ∃ drafts, kids.mapM (fun entry => do .ok (entry.1, ← entry.2.mapM f)) = .ok drafts := by
  apply exists_mapM
  rintro ⟨role, occupants⟩ hentry
  have hoccupants : ∃ drafts, occupants.mapM f = .ok drafts := by
    have hkid : ∀ c ∈ occupants.toList, ∃ draft, f c = .ok draft := fun c hc =>
      h c (mem_flatMap.mpr ⟨_, hentry, hc⟩)
    cases occupants with
    | empty => exact ⟨.empty, rfl⟩
    | one c =>
      obtain ⟨draft, hdraft⟩ := hkid c (by simp [Occupants.toList])
      exact ⟨.one draft, by rw [Occupants.mapM, hdraft]; rfl⟩
    | many cs =>
      obtain ⟨drafts, hdrafts⟩ := exists_mapM hkid
      exact ⟨.many drafts, by rw [Occupants.mapM, show cs.mapM f = .ok drafts from hdrafts]; rfl⟩
  obtain ⟨drafts, hdrafts⟩ := hoccupants
  exact ⟨(role, drafts), by rw [hdrafts]; rfl⟩

def isPlainlyNamed : Shape → Bool
  | .reference name _ _ => name.text?.isSome
  | _ => true

def isEvaluable (t : Tree) (step : NodeId) : Bool :=
  (t.only? step .left).isSome && ((t.only? step .right).any fun right =>
    (t.node right).type?.isSome) && (t.walk step).all fun a => isPlainlyNamed (t.shape a)

def localFor? (locals : Locals) : Shape → Option Symbol
  | .reference (.text name) _ _ => List.lookup name locals
  | _ => none

def renamedTerm (locals : Locals) : Term → Term :=
  Term.fold fun origin face _ kids =>
    match localFor? locals face.shape with
    | some symbol => .node none ⟨.reference symbol.name (some symbol) symbol.type, none,
        face.position, []⟩ []
    | none => .node origin face kids

section

variable {depth : Nat} {face : Face} {kids : Kids Term}

theorem renamedTerm_of_local (h : localFor? locals face.shape = some symbol) :
    renamedTerm locals (.node origin face kids) =
      .node none ⟨.reference symbol.name (some symbol) symbol.type, none, face.position, []⟩
    [] := by
  rw [renamedTerm, Term.fold_node, h]

theorem renamedTerm_of_none (h : localFor? locals face.shape = none) :
    renamedTerm locals (.node origin face kids) = .node origin face
    (mapKids (renamedTerm locals) kids) := by
  rw [renamedTerm, Term.fold_node, h]

theorem drafts_ofSymbol (h : localFor? locals face.shape = some symbol) :
    s.Drafts (renamedTerm locals (.node origin face kids)) (.ofSymbol symbol face.position) := by
  rw [renamedTerm_of_local h]
  exact drafts_fresh_iff.mpr ⟨⟨rfl, rfl⟩, .nil⟩

theorem eq_localFor?_of_localOf? {found : Option Symbol} (h : localOf? t locals id = .ok found) :
    found = localFor? locals (t.shape id) := by
  unfold localOf? at h
  split at h
  · rename_i name _ _ hshape
    rw [hshape]
    cases name with
    | text text =>
      cases h
      rfl
    | other value =>
      by_cases hkey : value.isKey = true
      · simp [Name.find?, Name.key?, hkey, Except.map] at h
        rw [← h]
        rfl
      · simp [Name.find?, Name.key?, hkey, Except.map] at h
  · rename_i hshape
    cases h
    unfold localFor?
    split
    · rename_i heq
      exact absurd heq (hshape _ _ _)
    · rfl

theorem renamedWithin_drafts (hreads : s.Reads s.Has term id)
    (hsame : ∀ a, s.Beneath id a → (t.node a).face = (s.node a).face ∧
      (t.node a).kids = (s.node a).kids)
    (hdepth : t.Shallow depth id) (h : renamedWithin t locals depth id = .ok draft) :
    s.Drafts (renamedTerm locals term) draft := by
  induction depth generalizing id draft term with
  | zero => exact hdepth.elim
  | succ depth ih =>
    obtain ⟨origin, face, kids⟩ := term
    obtain ⟨hhas, horigin, hface, hkids⟩ := reads_node_iff.mp hreads
    obtain ⟨hfaceT, hkidsT⟩ := hsame id Beneath.refl
    have hlook : (t.node id).face = face := hfaceT.trans hface
    unfold renamedWithin at h
    obtain ⟨found, hfound, h⟩ := Except.bind_eq_ok h
    have hlocal := eq_localFor?_of_localOf? hfound
    rw [show t.shape id = face.shape from congrArg Face.shape hlook] at hlocal
    cases found with
    | some symbol =>
      cases h
      rw [show t.position id = face.position from congrArg Face.position hlook]
      exact drafts_ofSymbol hlocal.symm
    | none =>
      obtain ⟨drafts, hdrafts, h⟩ := Except.bind_eq_ok h
      cases h
      rw [renamedTerm_of_none hlocal.symm]
      refine drafts_amended_iff.mpr ⟨⟨hhas, (horigin id).mpr ⟨hhas, rfl⟩, hface⟩,
        KidsRel.mapKids_left_iff.mpr ?_⟩
      have hmade := kids_of_mapM hdrafts
      rw [hkidsT] at hmade
      refine hkids.join hmade fun kid draft c hc hread hdraft =>
        ih hread (fun a ha => hsame a (ha.below_child hc)) ?_ hdraft
      refine hdepth c ?_
      rw [children, Node.children, hkidsT]
      exact hc

theorem exists_renamedWithin (hnamed : ∀ a, t.Beneath id a → isPlainlyNamed (t.shape a) = true)
    (depth : Nat) :
    ∃ draft, renamedWithin t locals depth id = .ok draft := by
  induction depth generalizing id with
  | zero => exact ⟨_, rfl⟩
  | succ depth ih =>
    have hfound : ∃ found, localOf? t locals id = .ok found := by
      have hname := hnamed id Beneath.refl
      unfold localOf?
      split
      · rename_i name _ _ hshape
        rw [hshape] at hname
        cases name with
        | text text => exact ⟨_, rfl⟩
        | other value => cases hname
      · exact ⟨_, rfl⟩
    obtain ⟨found, hfound⟩ := hfound
    unfold renamedWithin
    rw [hfound]
    cases found with
    | some symbol => exact ⟨_, rfl⟩
    | none =>
      have hkid : ∀ c ∈ t.children id, ∃ draft, renamedWithin t locals depth c = .ok draft :=
        fun c hc =>
        ih fun a ha => hnamed a (ha.below_child hc)
      obtain ⟨drafts, hdrafts⟩ := exists_kids_mapM hkid
      rw [hdrafts]
      exact ⟨_, rfl⟩

theorem renamedWithin_strewn (hid : t.Intact id) (hdepth : t.Shallow depth id)
    (h : renamedWithin t locals depth id = .ok draft) : Strewn t [id] draft.parts ∧
      draft.Laid t := by
  induction depth generalizing id draft with
  | zero => exact hdepth.elim
  | succ depth ih =>
    unfold renamedWithin at h
    obtain ⟨found, _, h⟩ := Except.bind_eq_ok h
    cases found with
    | some symbol =>
      cases h
      exact ⟨by simpa [Draft.ofSymbol] using Strewn.nil t [id],
        by simp [Draft.ofSymbol, Shape.kind, NodeKind.layout]⟩
    | none =>
      obtain ⟨kids, hkids, h⟩ := Except.bind_eq_ok h
      cases h
      have hdrafts := kids_of_mapM hkids
      have hchildren : List.Forall₂ (fun child draft => Strewn t [child] draft.parts ∧ draft.Laid t)
          (t.children id) (allKids kids) := by
        have hboth := (forall₂_and_left _ _).mpr
          ⟨fun c (hc : c ∈ t.children id) => And.intro (hid.child hc) (hdepth c hc),
            (KidsRel.toList hdrafts).flip⟩
        exact hboth.imp fun _ _ hchild => ih hchild.1.1 hchild.1.2 hchild.2
      constructor
      · rw [Draft.parts, partsOfKids_eq_flatMap]
        refine (Strewn.flatten (hchildren.imp fun _ _ hboth => hboth.1)
          (hid.children_apart (List.Sublist.refl _))).cons hid fun _ htop => htop
      · refine ⟨hid.has, hdrafts.roles_eq, (kidsLaid_iff t kids).mpr fun draft hdraft => ?_⟩
        obtain ⟨child, _, hchild⟩ := exists_of_forall₂ hchildren hdraft
        exact hchild.2

end

/-! ## Steps -/

/-- The local that is declared for a temporary. -/
def temporaryLocal (serial : Nat) (name : String) (type : Option Ty) : Symbol :=
  { origin := .coined serial, kind := .localVariable, name := surfacedName name, type, isStatic :=
    false,
    isSynthetic := false, parameters := [], declaring := none }

def declarationTerm (symbol : Symbol) (initializer : Term) : Term :=
  .node none ⟨.declaration symbol.name (some symbol), none, none, []⟩
    [(.typeRef,
      .ofOption (symbol.type.map fun type => .node none ⟨.typeRef (some type), none, none, []⟩ [])),
      (.initializer, .one initializer)]

def statementTerm (expression : Term) : Term :=
  .node none ⟨.expressionStatement, none, none, []⟩ [(.expression, .one expression)]

/-- What the steps of an evaluation come to: the locals that stand for temporaries by then, and a
statement for each step. The first assignment to a temporary declares its local, and every other
step remains an assignment; references to the locals there are by then are renamed in both. -/
inductive Expands (first : Nat) : List Term → Locals → List Term → Prop where
  | nil : Expands first [] [] []
  | declares {steps statements : List Term} {locals : Locals} {step left right : Term}
      {name : String} {bound : Option Symbol} {type : Option Ty}
      (h : Expands first steps locals statements) (hleft : kidsAt .left step.kids = .one left)
      (hright : kidsAt .right step.kids = .one right)
      (hname : left.face.shape = .reference name bound type) (hmarked : isMarked name = true)
      (hnew : List.lookup name locals = none) {symbol : Symbol}
        (hsymbol :
          symbol = temporaryLocal (first + locals.length) name
        (type.or (step.face.type?.join.or (renamedTerm locals right).face.type?.join))) :
      Expands first (steps ++ [step]) ((name, symbol) :: locals)
        (statements ++ [declarationTerm symbol (renamedTerm locals right)])
  | assigns {steps statements : List Term} {locals : Locals} {step : Term}
      (h : Expands first steps locals statements)
        (hknown : ∀ left (name : String) bound type, kidsAt .left step.kids = .one left →
          left.face.shape = .reference name bound type → isMarked name = true →
        (List.lookup name locals).isSome = true) :
      Expands first (steps ++ [step]) locals
        (statements ++ [statementTerm (renamedTerm locals step)])

/-- The steps `before` of an `Eval` have been taken apart, and some statements have been made of
them. -/
structure Expanding (s t : Tree) (expression : NodeId) (before : List NodeId)
    (expansion : Expansion) : Prop where
  loosened : Loosened (fun a => a = expression ∨ a ∈ before) (fun a => s.Drawn before a) s t
  inner : ∀ step ∈ before, s.children step ≠ []
  strewn : Strewn s before (partsOfAll expansion.statements)
  laid : AllLaid t expansion.statements
  remaining : ∀ c ∈ s.children expression, c ∉ before → c ∈ t.children expression
  coined : t.coined = s.coined + expansion.locals.length
  expands : ∃ steps statements, List.Forall₂ (s.Reads s.Has) steps before ∧
    List.Forall₂ s.Drafts statements expansion.statements ∧
      Expands s.coined steps expansion.locals statements

theorem Expanding.add {s t u : Tree} {expression step : NodeId} {before : List NodeId}
    {expansion : Expansion} {locals : Locals} {statement : Draft} {term made : Term}
    (h : Expanding s t expression before expansion)
    (hloosened :
      Loosened (fun a => a = expression ∨ a ∈ before ++ [step])
      (fun a => s.Drawn (before ++ [step]) a) s u) (hkeeps : t.Keeps u)
    (hapart : ∀ other ∈ before, s.Apart other step) (hinner : s.children step ≠ [])
    (hstrewn : Strewn s [step] statement.parts) (hlaid : statement.Laid u)
    (hremaining : ∀ c ∈ t.children expression, c ≠ step → c ∈ u.children expression)
    (hcoined : u.coined = s.coined + locals.length) (hterm : s.Reads s.Has term step)
    (hmade : s.Drafts made statement)
    (hexpands : ∀ steps statements, Expands s.coined steps expansion.locals statements →
      Expands s.coined (steps ++ [term]) locals (statements ++ [made])) :
    Expanding s u expression (before ++ [step]) ⟨locals, expansion.statements ++ [statement]⟩ where
  loosened := hloosened
  inner := by
    intro other hother
    rcases mem_append.mp hother with hother | hother
    · exact h.inner other hother
    · rwa [mem_singleton.mp hother]
  strewn := by
    rw [partsOfAll_append]
    refine h.strewn.append (by simpa using hstrewn) ?_
    intro a ha b hb
    rw [mem_singleton.mp hb]
    exact hapart a ha
  laid := by
    rw [allLaid_iff]
    intro draft hdraft
    rcases mem_append.mp hdraft with hdraft | hdraft
    · exact Draft.Laid.transfer hkeeps draft ((allLaid_iff t _).mp h.laid draft hdraft)
    · rwa [mem_singleton.mp hdraft]
  remaining := by
    intro c hc hnot
    rw [mem_append, not_or, mem_singleton] at hnot
    exact hremaining c (h.remaining c hc hnot.1) hnot.2
  coined := hcoined
  expands := by
    obtain ⟨steps, statements, hsteps, hstatements, hsofar⟩ := h.expands
    exact ⟨_, _, rel_append hsteps (.cons hterm .nil), rel_append hstatements (.cons hmade .nil),
      hexpands steps statements hsofar⟩

structure Upcoming (s : Tree) (expression step : NodeId) (before : List NodeId) : Prop where
  tidy : s.Tidy
  stands : s.Standing expression
  child : step ∈ s.children expression
  earlier : ∀ other ∈ before, other ∈ s.children expression ∧ other ≠ step
  kind : s.kind step = .binary

namespace Upcoming

variable {other : NodeId} {P : NodeId → Prop}

variable (h : Upcoming s expression step before)

include h

theorem standing : s.Standing step :=
  h.stands.child h.child

theorem apart (hother : other ∈ before) : s.Apart other step := fun _ hbelow =>
  h.stands.intact.siblings_apart (h.earlier other hother).1 h.child (h.earlier other hother).2
    hbelow

theorem not_drawn (hbelow : s.Beneath step a) : ¬s.Drawn before a := by
  rintro ⟨other, hother, hother'⟩
  exact h.apart hother a hother' hbelow

theorem not_parted (hbelow : s.Beneath step a) : ¬(a = expression ∨ a ∈ before) := by
  rintro (rfl | hmem)
  · exact h.stands.intact.not_beneath_of_child h.child hbelow
  · exact h.not_drawn hbelow ⟨a, hmem, Beneath.refl⟩

theorem roles_step : s.roles step = [.left, .right] := by
  have hlaid := h.tidy step h.standing.has
  rw [Laid, h.kind] at hlaid
  exact hlaid

theorem side_same (hloose : Loosened (fun a => a = expression ∨ a ∈ before) P s t)
    (hside : side ∈ s.children step) (hP : ∀ a, s.Within side a → ¬P a) : s.SameBeneath t side :=
  hloose.sameBeneath (h.standing.child hside).intact
    (fun _ ha => h.not_parted (ha.below_child hside)) hP

theorem only?_eq (hloose : Loosened (fun a => a = expression ∨ a ∈ before) P s t) (role : Role) :
    t.only? step role = s.only? step role := by
  rw [Tree.only?, Node.kid, hloose.kids_eq h.standing.has (h.not_parted Beneath.refl)]
  rfl

theorem statement_strewn (hleft : s.only? step .left = some left)
    (hright : s.only? step .right = some right) (hleftParts : Strewn s [left] leftDraft.parts)
    (hrightParts : Strewn s [right] rightDraft.parts) :
    Strewn s [step] (Draft.expressionStatement
      (.amended step [(.left, .one leftDraft), (.right, .one rightDraft)])).parts := by
  have hne := only?_ne h.standing.intact (by decide) hleft hright
  have hsides : Strewn s ([left] ++ [right]) (leftDraft.parts ++ rightDraft.parts) := by
    refine hleftParts.append hrightParts ?_
    intro a ha b hb
    rw [mem_singleton.mp ha, mem_singleton.mp hb]
    exact fun c => h.standing.intact.siblings_apart (mem_children_of_only? hleft)
      (mem_children_of_only? hright) hne
  have hstep := hsides.cons h.standing.intact (by
    intro top htop
    simp only [mem_append, mem_singleton] at htop
    rcases htop with rfl | rfl
    · exact mem_children_of_only? hleft
    · exact mem_children_of_only? hright)
  simpa [Draft.expressionStatement] using hstep

theorem statement_laid (hkeeps : s.Keeps t) (hleft : leftDraft.Laid t)
    (hright : rightDraft.Laid t) :
    (Draft.expressionStatement
      (.amended step [(.left, .one leftDraft), (.right, .one rightDraft)])).Laid t := by
  simp [Draft.expressionStatement, Shape.kind, NodeKind.layout, hkeeps.has h.standing.has,
    hkeeps.roles_eq step h.standing.has, h.roles_step, hleft, hright]

end Upcoming

/-- While the step is taken apart it has lost its parent, and beneath one of its sides references
may have. -/
def Apiece (s : Tree) (step : NodeId) (before sides : List NodeId) (a : NodeId) : Prop :=
  s.Drawn before a ∨ a = step ∨ s.Drawn sides a

theorem Upcoming.side_intact (h : Upcoming s expression step before)
    (hloose : Loosened (fun a => a = expression ∨ a ∈ before) (Apiece s step before sides) s t)
    (hside : side ∈ s.children step)
    (hsides : ∀ other ∈ sides, other ∈ s.children step ∧ other ≠ side) :
    s.SameBeneath t side ∧ t.Intact side := by
  have hsame : s.SameBeneath t side := by
    refine h.side_same hloose hside ?_
    rintro a ha (hbad | rfl | ⟨other, hother, hbad⟩)
    · exact h.not_drawn (ha.1.below_child hside) hbad
    · exact h.standing.intact.not_beneath_of_child hside ha.1
    · exact h.standing.intact.siblings_apart (hsides other hother).1 hside (hsides other hother).2
        hbad ha.1
  refine ⟨hsame, (h.standing.child hside).intact.transfer (fun _ => hloose.keeps.hasSlot)
    (fun a ha => congrArg allKids (hsame a ha).1) fun a ha => (hsame a ha.1).2 ha.2⟩

theorem loosened_of_apiece
    (hloose : Loosened (fun a => a = expression ∨ a ∈ before) (Apiece s step before sides) s t)
    (hsides : ∀ side ∈ sides, side ∈ s.children step) :
    Loosened (fun a => a = expression ∨ a ∈ before ++ [step])
    (fun a => s.Drawn (before ++ [step]) a) s t := by
  have hself : step ∈ before ++ [step] := by simp
  refine hloose.mono (fun a ha => ha.imp_right fun hmem => mem_append_left _ hmem) ?_
  rintro a (⟨other, hother, hbelow⟩ | rfl | ⟨side, hside, hbelow⟩)
  · exact ⟨other, mem_append_left _ hother, hbelow⟩
  · exact ⟨a, hself, Beneath.refl⟩
  · exact ⟨step, hself, hbelow.below_child (hsides side hside)⟩

theorem Upcoming.renamed_side (h : Upcoming s expression step before)
    (hloose : Loosened (fun a => a = expression ∨ a ∈ before) (Apiece s step before sides) s
      middle.tree)
    (hside : side ∈ s.children step)
    (hsides : ∀ other ∈ sides, other ∈ s.children step ∧ other ≠ side)
    (hterm : s.Reads s.Has term side)
    (hamiss : ¬(∀ a, s.Beneath step a → isPlainlyNamed (s.shape a) = true) → amiss) :
    EndsUnless amiss (renamed locals side) middle fun draft after =>
      (∃ gone, after.tree = middle.tree.detachAll gone) ∧ Strewn s [side] draft.parts ∧
        draft.Laid after.tree ∧ s.Drafts (renamedTerm locals term) draft ∧
          Loosened (fun a => a = expression ∨ a ∈ before) (Apiece s step before (side :: sides)) s
            after.tree := by
  obtain ⟨hsame, hintact⟩ := h.side_intact hloose hside hsides
  have hnode : ∀ a, s.Beneath side a → s.Has a :=
    fun a ha => ((h.standing.child hside).beneath ha).has
  have hback : ∀ a, middle.tree.Beneath side a → s.Beneath side a := fun a ha =>
    ha.of_transfer fun b hb => congrArg allKids (hsame b hb).1
  apply EndsUnless.bind
  apply EndsUnless.tree
  apply EndsUnless.bind
  apply EndsUnless.ofExcept
  · intro draft hdraft
    obtain ⟨hparts, hlaid⟩ := renamedWithin_strewn hintact hintact.shallow hdraft
    apply EndsUnless.bind
    apply EndsUnless.change
    refine EndsUnless.pure ⟨⟨_, rfl⟩, hparts.of_same hsame,
      Draft.Laid.transfer (Keeps.detachAll _ _) _ hlaid, ?_, ?_⟩
    · refine renamedWithin_drafts hterm (fun a ha => ?_) hintact.shallow hdraft
      exact ⟨hloose.face_eq (hnode a ha), (hsame a ha).1⟩
    · refine (hloose.mono (fun _ hK => hK) ?_).trans
        ((Loosened.detachAll _ _).mono (fun _ => False.elim) fun a ha => ?_)
      · rintro a (hdrawn | hstep | ⟨other, hother, hbelow⟩)
        · exact Or.inl hdrawn
        · exact Or.inr (Or.inl hstep)
        · exact Or.inr (Or.inr ⟨other, mem_cons_of_mem _ hother, hbelow⟩)
      · exact Or.inr (Or.inr ⟨side, by simp, hback a (beneath_of_mem_walk (mem_filter.mp ha).1)⟩)
  · intro hfault
    apply hamiss
    intro hnamed
    have hplain : ∀ a, middle.tree.Beneath side a →
      isPlainlyNamed (middle.tree.shape a) = true := by
      intro a ha
      rw [hloose.shape_eq (hnode a (hback a ha))]
      exact hnamed a ((hback a ha).below_child hside)
    obtain ⟨draft, hdraft⟩ := exists_renamedWithin hplain (middle.tree.size + 1)
    exact hfault draft hdraft

theorem coined_update (t : Tree) (id : NodeId) (f : Node → Node) :
    (t.update id f).coined = t.coined := by
  cases id <;> rfl

theorem coined_detachAll (t : Tree) (gone : List NodeId) :
    (t.detachAll gone).coined = t.coined := by
  induction gone generalizing t with
  | nil => rfl
  | cons id rest ih => exact (ih (t.detach id)).trans (coined_update t id _)

theorem coined_remove {t' : Tree} (h : t.remove id = .ok t') : t'.coined = t.coined := by
  unfold Tree.remove at h
  split at h
  · cases h
  · split at h <;>
    · cases h
      exact (coined_update _ _ _).trans (coined_update _ _ _)

theorem evaluable_sides (h : isEvaluable s step = true) :
    (∃ left, s.only? step .left = some left) ∧ ∃ right, s.only? step .right = some right ∧
      (s.node right).type?.isSome := by
  simp only [isEvaluable, Bool.and_eq_true, Option.isSome_iff_exists, Option.any_eq_true] at h
  exact ⟨h.1.1, by simpa [Option.isSome_iff_exists] using h.1.2⟩

theorem evaluable_named (hstep : s.Intact step) (h : isEvaluable s step = true) (a : NodeId)
    (ha : s.Beneath step a) :
    isPlainlyNamed (s.shape a) = true := by
  simp only [isEvaluable, Bool.and_eq_true, all_eq_true] at h
  exact h.2 a (mem_walk_of_beneath hstep.shallow ha)

theorem Upcoming.exists_term (h : Upcoming s expression step before)
    (hleft : s.only? step .left = some left) (hright : s.only? step .right = some right) :
    ∃ leftTerm rightTerm, s.Reads s.Has leftTerm left ∧ s.Reads s.Has rightTerm right ∧
      s.Reads s.Has
        (.node (some step) (s.node step).face [(.left, .one leftTerm), (.right, .one rightTerm)])
        step := by
  obtain ⟨term, hterm⟩ := Reads.exists_of_intact s.Has h.standing.intact
  obtain ⟨origin, face, kids⟩ := term
  obtain ⟨leftTerm, hleftKid, hleftReads⟩ := hterm.only hleft
  obtain ⟨rightTerm, hrightKid, hrightReads⟩ := hterm.only hright
  obtain ⟨hhas, horigin, rfl, hkids⟩ := reads_node_iff.mp hterm
  have hroles : kids.map Prod.fst = [.left, .right] := hkids.roles_eq.trans h.roles_step
  obtain ⟨⟨firstRole, firstOccupants⟩, rest, rfl, rfl, hrest⟩ := map_eq_cons_iff.mp hroles
  obtain ⟨⟨secondRole, secondOccupants⟩, rfl, rfl⟩ := map_eq_singleton_iff.mp hrest
  have hfirst : firstOccupants = .one leftTerm := by simpa [kidsAt] using hleftKid
  have hsecond : secondOccupants = .one rightTerm := by simpa [kidsAt] using hrightKid
  rw [hfirst, hsecond, (horigin step).mpr ⟨hhas, rfl⟩] at hterm
  exact ⟨leftTerm, rightTerm, hleftReads, hrightReads, hterm⟩

theorem kids_of_reference {name : Name} (htidy : s.Tidy) (hid : s.Has id)
    (h : s.shape id = .reference name bound type) :
    (s.node id).kids = [] := by
  have hlaid := htidy id hid
  rw [Laid, Tree.kind, h] at hlaid
  exact map_eq_nil_iff.mp hlaid

theorem localFor?_of_kind {shape : Shape} (h : shape.kind ≠ .reference) :
    localFor? locals shape = none := by
  unfold localFor?
  split
  · exact absurd rfl h
  · rfl

theorem renamedTerm_type? (h : term.face.type?.isSome = true) :
    (renamedTerm locals term).face.type?.isSome = true := by
  obtain ⟨origin, face, kids⟩ := term
  cases hlocal : localFor? locals face.shape with
  | some symbol =>
    rw [renamedTerm_of_local hlocal]
    rfl
  | none =>
    rw [renamedTerm_of_none hlocal]
    exact h

theorem eq_or_of_typeOr {first second : Option Ty}
    (h : Tree.typeOr first (Tree.typeOr second (match third with
      | some type => .ok type
      | none => .error .unfit)) = .ok type) :
    type = first.or (second.or third.join) := by
  cases first <;> cases second <;> cases third <;> cases h <;> rfl

theorem exists_typeOr (first second : Option Ty) (h : third.isSome = true) :
    ∃ type, Tree.typeOr first (Tree.typeOr second (match third with
      | some type => .ok type
      | none => .error .unfit)) = .ok type := by
  obtain ⟨type, rfl⟩ := Option.isSome_iff_exists.mp h
  cases first <;> cases second <;> exact ⟨_, rfl⟩

theorem drafts_declaration (h : s.Drafts term draft) :
    s.Drafts (declarationTerm symbol term) (.declaration symbol symbol.type (some draft) none) := by
  refine drafts_fresh_iff.mpr ⟨⟨rfl, rfl⟩, .cons ⟨rfl, ?_⟩ (.cons ⟨rfl, .one h⟩ .nil)⟩
  cases symbol.type with
  | none => exact .empty
  | some type => exact .one (drafts_fresh_iff.mpr ⟨⟨rfl, rfl⟩, .nil⟩)

theorem drafts_kept_reference (h : s.Reads s.Has term id) (hkids : (s.node id).kids = [])
    (hlocal : localFor? locals term.face.shape = none) :
      s.Drafts (renamedTerm locals term) (.kept id) := by
  obtain ⟨origin, face, kids⟩ := term
  obtain ⟨hhas, horigin, hface, hrel⟩ := reads_node_iff.mp h
  rw [hkids] at hrel
  cases hrel
  have hlocal : localFor? locals face.shape = none := hlocal
  rw [renamedTerm_of_none hlocal]
  exact drafts_kept_iff.mpr ⟨⟨hhas, (horigin id).mpr ⟨hhas, rfl⟩, hface⟩, rfl⟩

theorem declareTemporary_ends {s : Session} {right : Draft} {post : Expansion → Session → Prop}
    (h : ∀ (coined : Tree) symbol after, coined.nodes = s.tree.nodes → coined.loose = s.tree.loose →
      coined.root = s.tree.root → coined.coined = s.tree.coined + 1 →
      symbol = temporaryLocal s.tree.coined name
        (type.or ((s.tree.typeOf step).or (right.type? s.tree).join)) →
      after.tree = coined.setRole step .right .empty → post ⟨(name, symbol) :: expansion.locals,
      expansion.statements ++ [.declaration symbol symbol.type (some right) none]⟩ after)
    (hamiss : right.type? s.tree = none → amiss) :
    EndsUnless amiss (declareTemporary expansion step name type right) s post := by
  apply EndsUnless.bind
  apply EndsUnless.tree
  apply EndsUnless.bind
  apply EndsUnless.ofExcept
  · intro found hfound
    have htype := eq_or_of_typeOr hfound
    exact h { s.tree with coined := s.tree.coined + 1 } (temporaryLocal s.tree.coined name found) _
      rfl rfl rfl rfl (by rw [htype]) rfl
  · intro hnone
    apply hamiss
    rw [← Option.not_isSome_iff_eq_none]
    intro hsome
    obtain ⟨found, hfound⟩ := exists_typeOr type (s.tree.typeOf step) hsome
    exact hnone found hfound

/-- The right side of the step has been renamed, and the left side is next. -/
structure Halfway (s start t : Tree) (expression step right : NodeId) (before : List NodeId)
    (expansion : Expansion) (term : Term) (draft : Draft) : Prop where
  sofar : Expanding s start expression before expansion
  keeps : start.Keeps t
  loosened : Loosened (fun a => a = expression ∨ a ∈ before) (Apiece s step before [right]) s t
  remaining : ∀ c ∈ start.children expression, c ≠ step → c ∈ t.children expression
  coined : t.coined = s.coined + expansion.locals.length
  strewn : Strewn s [right] draft.parts
  laid : draft.Laid t
  drafts : s.Drafts (renamedTerm expansion.locals term) draft

namespace Halfway

variable {start : Tree} {leftTerm rightTerm : Term}

theorem wider (h : Halfway s start t expression step right before expansion rightTerm rightDraft)
    (left : NodeId) :
    Loosened (fun a => a = expression ∨ a ∈ before) (Apiece s step before [left, right]) s t := by
  refine h.loosened.mono (fun _ hK => hK) ?_
  rintro a (hdrawn | hstep | ⟨side, hside, hbelow⟩)
  · exact Or.inl hdrawn
  · exact Or.inr (Or.inl hstep)
  · exact Or.inr (Or.inr ⟨side, mem_cons_of_mem _ hside, hbelow⟩)

theorem assigned {after : Tree}
    (h : Halfway s start t expression step right before expansion rightTerm rightDraft)
    (hup : Upcoming s expression step before) (hleft : s.only? step .left = some left)
    (hright : s.only? step .right = some right)
    (hterm : s.Reads s.Has
      (.node (some step) (s.node step).face [(.left, .one leftTerm), (.right, .one rightTerm)])
      step)
    (gone : List NodeId) (hafter : after = t.detachAll gone)
    (hloose : Loosened (fun a => a = expression ∨ a ∈ before) (Apiece s step before [left, right]) s
      after)
    (hstrewn : Strewn s [left] leftDraft.parts) (hlaid : leftDraft.Laid after)
    (hdrafts : s.Drafts (renamedTerm expansion.locals leftTerm) leftDraft)
    (hknown : ∀ (name : String) bound type, leftTerm.face.shape = .reference name bound type →
      isMarked name = true → (List.lookup name expansion.locals).isSome = true) :
    Expanding s after expression (before ++ [step])
    (expansion.addStep step leftDraft rightDraft) := by
  have hlater : t.Keeps after := by
    rw [hafter]
    exact Keeps.detachAll _ _
  have hrightC := mem_children_of_only? hright
  refine h.sofar.add (loosened_of_apiece hloose (by simp [mem_children_of_only? hleft, hrightC]))
    (h.keeps.trans hlater) (fun _ hother => hup.apart hother) (ne_nil_of_mem hrightC)
    (hup.statement_strewn hleft hright hstrewn h.strewn)
    (hup.statement_laid hloose.keeps hlaid (Draft.Laid.transfer hlater _ h.laid)) ?_ ?_ hterm
    (drafts_fresh_iff.mpr ⟨⟨rfl, rfl⟩, .cons ⟨rfl, .one ?_⟩ .nil⟩) fun steps statements hsteps =>
    .assigns hsteps ?_
  · rw [hafter, children_detachAll]
    exact h.remaining
  · rw [hafter, coined_detachAll]
    exact h.coined
  · have hnone : localFor? expansion.locals (s.node step).face.shape = none :=
      localFor?_of_kind fun hbad => by cases hup.kind.symm.trans hbad
    rw [renamedTerm_of_none hnone]
    exact drafts_amended_iff.mpr ⟨⟨hup.standing.has, rfl, rfl⟩,
      .cons ⟨rfl, .one hdrafts⟩ (.cons ⟨rfl, .one h.drafts⟩ .nil)⟩
  · intro other name bound type hother
    cases show Occupants.one leftTerm = .one other from hother
    exact hknown name bound type

theorem declared {coined : Tree}
    (h : Halfway s start t expression step right before expansion rightTerm rightDraft)
    (hup : Upcoming s expression step before) (hleft : s.only? step .left = some left)
    (hright : s.only? step .right = some right)
    (hterm : s.Reads s.Has (.node (some step) (s.node step).face
      [(.left, .one leftTerm), (.right, .one rightTerm)]) step)
    (hname : leftTerm.face.shape = .reference name bound type) (hmarked : isMarked name = true)
    (hnew : List.lookup name expansion.locals = none) (hnodes : coined.nodes = t.nodes)
    (hloose : coined.loose = t.loose) (hroot : coined.root = t.root)
    (hserial : coined.coined = t.coined + 1) (hsymbol :
      symbol = temporaryLocal t.coined name
      (type.or ((t.typeOf step).or (rightDraft.type? t).join))) :
    Expanding s (coined.setRole step .right .empty) expression (before ++ [step])
      ⟨(name, symbol) :: expansion.locals,
        expansion.statements ++ [.declaration symbol symbol.type (some rightDraft) none]⟩ := by
  have hrightC := mem_children_of_only? hright
  have hsame : t.Keeps coined :=
    (Spared.of_same_store (D := fun _ => False) hnodes hloose hroot).keeps
  have hlater := hsame.trans (Keeps.setRole _ step .right .empty)
  have hcut :=
    (loosened_of_apiece (h.wider left) (by simp [mem_children_of_only? hleft, hrightC])).trans
    (Loosened.of_same_store hnodes hloose hsame)
  have hother : expression ≠ step := fun heq => hup.not_parted Beneath.refl (Or.inl heq.symm)
  refine h.sofar.add (hcut.setRole (Or.inr (by simp)) (by simp [Occupants.toList]))
    (h.keeps.trans hlater) (fun _ hbefore => hup.apart hbefore) (ne_nil_of_mem hrightC) ?_
    (declaration_laid _ _ _ _ (Draft.Laid.transfer hlater _ h.laid)) ?_ ?_ hterm
      (drafts_declaration h.drafts)
    fun steps statements hsteps => .declares hsteps rfl rfl hname hmarked hnew ?_
  · rw [declaration_parts]
    exact h.strewn.mono fun top htop => ⟨step, by simp, by
      rw [mem_singleton.mp htop]
      exact Beneath.of_child hrightC⟩
  · rw [children_setRole_ne _ hother, show coined.children expression = t.children expression from
      congrArg Node.children (node_congr hnodes hloose _)]
    exact h.remaining
  · rw [Tree.setRole, coined_update, hserial, h.coined, length_cons, Nat.add_assoc]
  · rw [hsymbol, h.coined, h.drafts.type?_eq fun _ ha => h.loosened.face_eq ha,
      Tree.typeOf, ← Node.type?_face, h.loosened.face_eq hup.standing.has]
    rfl

theorem named (h : Halfway s start t expression step right before expansion rightTerm rightDraft)
    (hup : Upcoming s expression step before) (hleft : s.only? step .left = some left)
    (hright : s.only? step .right = some right)
    (hterm : s.Reads s.Has (.node (some step) (s.node step).face
      [(.left, .one leftTerm), (.right, .one rightTerm)]) step)
    (hface : (t.node left).face = leftTerm.face)
    (hname : leftTerm.face.shape = .reference name bound type)
    (hlookup : List.lookup name expansion.locals = some symbol) :
    Expanding s t expression (before ++ [step])
      (expansion.addStep step (.ofSymbol symbol (t.position left)) rightDraft) := by
  refine h.assigned hup hleft hright hterm [] rfl (h.wider left) ?_ ?_ ?_ ?_
  · simpa [Draft.ofSymbol] using Strewn.nil s [left]
  · simp [Draft.ofSymbol, Shape.kind, NodeKind.layout]
  · obtain ⟨origin, face, kids⟩ := leftTerm
    rw [show t.position left = face.position from congrArg Face.position hface]
    refine drafts_ofSymbol ?_
    rw [show face.shape = .reference name bound type from hname]
    exact hlookup
  · intro other _ _ hother _
    cases hname.symm.trans hother
    rw [hlookup]
    rfl

theorem keptName (h : Halfway s start t expression step right before expansion rightTerm rightDraft)
    (hup : Upcoming s expression step before) (hleft : s.only? step .left = some left)
    (hright : s.only? step .right = some right) (hleftTerm : s.Reads s.Has leftTerm left)
    (hterm : s.Reads s.Has (.node (some step) (s.node step).face
      [(.left, .one leftTerm), (.right, .one rightTerm)]) step)
    (hname : leftTerm.face.shape = .reference name bound type) (hplain : ¬isMarked name = true)
    (hlookup : List.lookup name expansion.locals = none) :
    Expanding s t expression (before ++ [step])
    (expansion.addStep step (.kept left) rightDraft) := by
  have hleftHas := (hup.standing.child (mem_children_of_only? hleft)).has
  have hkids :=
    kids_of_reference hup.tidy hleftHas ((congrArg Face.shape hleftTerm.face_eq).trans hname)
  refine h.assigned hup hleft hright hterm [] rfl (h.wider left) ?_ trivial
    (drafts_kept_reference hleftTerm hkids (by rw [hname]; exact hlookup)) ?_
  · simpa using Strewn.leaf hkids
  · intro other _ _ hother hbad
    cases hname.symm.trans hother
    exact absurd hbad hplain

end Halfway

/-- What is done with a step whose right side has been renamed. -/
def expandLeft (expansion : Expansion) (step left : NodeId) (right : Draft) : Pass Expansion := do
  let t ← Pass.tree
  match t.shape left with
  | .reference name _ type =>
    let name ← Pass.ofExcept (name.asText .unfit)
    match List.lookup name expansion.locals with
    | some symbol => return expansion.addStep step (.ofSymbol symbol (t.position left)) right
    | none =>
      if isMarked name then declareTemporary expansion step name type right
      else return expansion.addStep step (.kept left) right
  | _ => return expansion.addStep step (← renamed expansion.locals left) right

theorem expandStep_eq (expansion : Expansion) (step : NodeId) : expandStep expansion step = (do
    Pass.remove step
    let right ← renamed expansion.locals (← Pass.child step .right)
    expandLeft expansion step (← Pass.child step .left) right) :=
  rfl

theorem expandLeft_ends {start : Tree} {rightTerm : Term} (h : Upcoming s expression step before)
    (hhalf : Halfway s start middle.tree expression step right before expansion rightTerm
      rightDraft)
    (hleft : s.only? step .left = some left) (hright : s.only? step .right = some right)
    (hrightTerm : s.Reads s.Has rightTerm right) (hamiss : isEvaluable s step = false → amiss) :
    EndsUnless amiss (expandLeft expansion step left rightDraft) middle fun result after =>
      Expanding s after.tree expression (before ++ [step]) result := by
  have hunnamed : ¬(∀ a, s.Beneath step a → isPlainlyNamed (s.shape a) = true) → amiss :=
    fun hnot =>
    hamiss (Bool.eq_false_iff.mpr fun hstep => hnot (evaluable_named h.standing.intact hstep))
  have hleftC := mem_children_of_only? hleft
  have hleftHas := (h.standing.child hleftC).has
  obtain ⟨leftTerm, rightTerm', hleftTerm, hrightTerm', hterm⟩ := h.exists_term hleft hright
  obtain rfl := hrightTerm.unique hrightTerm'
  have hface : (middle.tree.node left).face = leftTerm.face :=
    (hhalf.loosened.face_eq hleftHas).trans hleftTerm.face_eq
  apply EndsUnless.bind
  apply EndsUnless.tree
  split
  · rename_i name bound type hshape
    have hname : leftTerm.face.shape = .reference name bound type :=
      (congrArg Face.shape hface).symm.trans hshape
    apply EndsUnless.bind
    refine EndsUnless.ofExcept (fun text htext => ?_) fun hnone => hunnamed fun hnamed => ?_
    · cases name with
      | other value => cases htext
      | text text =>
        cases htext
        split
        · rename_i symbol hlookup
          exact EndsUnless.pure (hhalf.named h hleft hright hterm hface hname hlookup)
        rename_i hlookup
        split
        · rename_i hmarked
          refine declareTemporary_ends
            (fun coined symbol after hnodes hloose hroot hserial hsymbol hafter => ?_) fun hnone =>
            ?_
          · rw [hafter]
            exact hhalf.declared h hleft hright hterm hname hmarked hlookup hnodes hloose hroot
              hserial hsymbol
          · rw [hhalf.drafts.type?_eq fun _ ha => hhalf.loosened.face_eq ha] at hnone
            refine hamiss (Bool.eq_false_iff.mpr fun hstep => ?_)
            obtain ⟨other, hother, htype⟩ := (evaluable_sides hstep).2
            cases hright.symm.trans hother
            rw [← Node.type?_face, hrightTerm.face_eq] at htype
            have htyped : (renamedTerm expansion.locals rightTerm).face.type?.isSome = true :=
              renamedTerm_type? htype
            rw [hnone] at htyped
            cases htyped
        · rename_i hplain
          exact EndsUnless.pure (hhalf.keptName h hleft hright hleftTerm hterm hname hplain hlookup)
    · have hplain := hnamed left (Beneath.of_child hleftC)
      rw [show s.shape left = .reference name bound type from
        (hhalf.loosened.shape_eq hleftHas).symm.trans hshape] at hplain
      cases name with
      | text text => exact hnone text rfl
      | other value => cases hplain
  · rename_i hshape
    have hne := only?_ne h.standing.intact (by decide) hleft hright
    have hsides : ∀ side ∈ [right], side ∈ s.children step ∧ side ≠ left := by
      simpa using ⟨mem_children_of_only? hright, hne.symm⟩
    refine EndsUnless.bind ((h.renamed_side hhalf.loosened hleftC hsides hleftTerm hunnamed).mono
      ?_)
    rintro leftDraft after ⟨⟨others, hafter⟩, hleftS, hleftLaid, hleftD, hafterL⟩
    refine EndsUnless.pure (hhalf.assigned h hleft hright hterm _ hafter hafterL hleftS hleftLaid
      hleftD ?_)
    intro name bound type hname _
    exact absurd ((congrArg Face.shape hface).trans hname) (hshape _ _ _)

/-- A step ends in one more statement of the expansion, unless it cannot be evaluated. -/
theorem expandStep_ends (h : Upcoming s expression step before)
    (hsofar : Expanding s middle.tree expression before expansion)
    (hamiss : isEvaluable s step = false → amiss) :
    EndsUnless amiss (expandStep expansion step) middle fun result after =>
      Expanding s after.tree expression (before ++ [step]) result := by
  have hunnamed : ¬(∀ a, s.Beneath step a → isPlainlyNamed (s.shape a) = true) → amiss :=
    fun hnot =>
    hamiss (Bool.eq_false_iff.mpr fun hstep => hnot (evaluable_named h.standing.intact hstep))
  have hparent := hsofar.loosened.parent_eq h.standing.has (h.not_drawn Beneath.refl)
  rw [h.stands.intact.parent_child h.child] at hparent
  have hchild := hsofar.remaining step h.child fun hmem => (h.earlier step hmem).2 rfl
  rw [expandStep_eq]
  apply EndsUnless.bind
  refine EndsUnless.remove (fun cut hcut => ?_) fun hnone => ?_
  · obtain ⟨p, hp, hremoved, _⟩ := Loosened.remove hcut
    rw [hparent] at hp
    cases hp
    have hcutL : Loosened (fun a => a = expression ∨ a ∈ before) (Apiece s step before []) s cut :=
      (hsofar.loosened.mono (fun _ hK => hK) fun _ => Or.inl).trans
        (hremoved.mono (fun _ => Or.inl) fun _ heq => Or.inr (Or.inl heq))
    apply EndsUnless.bind
    refine EndsUnless.child (fun right hright => ?_) fun hnone => ?_
    · rw [h.only?_eq hcutL] at hright
      have hrightC := mem_children_of_only? hright
      obtain ⟨rightTerm, hrightTerm⟩ :=
        Reads.exists_of_intact s.Has (h.standing.child hrightC).intact
      refine EndsUnless.bind ((h.renamed_side hcutL hrightC (by simp) hrightTerm hunnamed).mono ?_)
      rintro rightDraft renamed ⟨⟨gone, hrenamed⟩, hrightS, hrightLaid, hrightD, hrenamedL⟩
      have hhalf : Halfway s middle.tree renamed.tree expression step right before expansion
        rightTerm rightDraft := by
        refine ⟨hsofar, ?_, hrenamedL, ?_, ?_, hrightS, hrightLaid, hrightD⟩
        · rw [hrenamed]
          exact hremoved.keeps.trans (Keeps.detachAll _ _)
        · rw [hrenamed, children_detachAll]
          exact fun c hc => mem_children_remove (hsofar.loosened.tidy h.tidy) hcut hparent hc
        · rw [hrenamed, coined_detachAll, coined_remove hcut]
          exact hsofar.coined
      apply EndsUnless.bind
      refine EndsUnless.child (fun left hleft => ?_) fun hnone => ?_
      · rw [h.only?_eq hrenamedL] at hleft
        exact expandLeft_ends h hhalf hleft hright hrightTerm hamiss
      · rw [h.only?_eq hrenamedL] at hnone
        refine hamiss (Bool.eq_false_iff.mpr fun hstep => ?_)
        obtain ⟨left, hleft⟩ := (evaluable_sides hstep).1
        cases hnone.symm.trans hleft
    · rw [h.only?_eq hcutL] at hnone
      refine hamiss (Bool.eq_false_iff.mpr fun hstep => ?_)
      obtain ⟨right, hright, _⟩ := (evaluable_sides hstep).2
      cases hnone.symm.trans hright
  · obtain ⟨cut, hcut⟩ := exists_remove hparent hchild
    exact absurd hcut (hnone cut)

/-! ## The whole statement -/

variable {s : Session}

/-- A statement that evaluates some steps has become a block with a statement for each of them. -/
def Expanded (s t : Tree) (statement : NodeId) (steps : List NodeId) : Prop :=
  ∃ block terms locals statements, Turned s t statement block ∧
    List.Forall₂ (s.Reads s.Has) terms steps ∧ Expands s.coined terms locals statements ∧
      t.Reads s.Has
        (.node none ⟨.block, none, s.position statement, []⟩ [(.statements, .many statements)])
        block

theorem expand_ends {statement : NodeId} (htidy : s.tree.Tidy)
    (hstatement : s.tree.Standing statement)
    (hexpression : s.tree.only? statement .expression = some expression)
    (hnonempty : s.tree.listed expression .arguments ≠ [])
    (hsteps : ∀ step ∈ s.tree.listed expression .arguments, (s.tree.shape step).isAssignment = true)
    (hamiss : ∀ step ∈ s.tree.listed expression .arguments, isEvaluable s.tree step = false → amiss)
    (htop : s.tree.parent statement = none → amiss) :
    EndsUnless amiss (expand statement (s.tree.listed expression .arguments)) s fun _ after =>
      Expanded s.tree after.tree statement (s.tree.listed expression .arguments) := by
  have hchild := mem_children_of_only? hexpression
  have hstands := hstatement.child hchild
  have hsub := s.tree.listed_sublist expression .arguments
  have hnodup := hstands.intact.nodup.sublist hsub
  have hinitial : Expanding s.tree s.tree expression [] ⟨[], []⟩ :=
    ⟨Loosened.refl _, by simp, Strewn.nil _ _, trivial, fun _ hc _ => hc, rfl, [], [], .nil, .nil,
      .nil⟩
  refine EndsUnless.bind ((EndsUnless.foldlM_along
    (fun before expansion after => Expanding s.tree after.tree expression before expansion) hinitial
      ?_).mono ?_)
  · intro before step after hsplit expansion middle hmiddle
    have hstep : step ∈ s.tree.listed expression .arguments := by simp [hsplit]
    refine expandStep_ends ⟨htidy, hstands, hsub.subset hstep, ?_, ?_⟩ hmiddle (hamiss step hstep)
    · intro other hother
      refine ⟨hsub.subset (by simp [hsplit, hother]), ?_⟩
      rw [hsplit, nodup_append] at hnodup
      exact hnodup.2.2 other hother step mem_cons_self
    · have hassignment := hsteps step hstep
      unfold Shape.isAssignment at hassignment
      split at hassignment
      · rename_i hshape
        rw [Tree.kind, hshape]
        rfl
      · exact absurd hassignment (by simp)
  · intro expansion middle hmiddle
    have hwithin : ∀ a, s.tree.Drawn (s.tree.listed expression .arguments) a →
      s.tree.Within statement a := by
      rintro a ⟨step, hstep, hbelow⟩
      exact hstatement.intact.within_of_child hchild (hbelow.below_child (hsub.subset hstep))
    have hparted : ∀ a, a = expression ∨ a ∈ s.tree.listed expression .arguments →
        s.tree.Within statement a ∧ s.tree.children a ≠ [] := by
      rintro a (rfl | ha)
      · obtain ⟨step, hstep⟩ := exists_mem_of_ne_nil _ hnonempty
        exact ⟨hstatement.intact.within_of_child hchild Beneath.refl,
          ne_nil_of_mem (hsub.subset hstep)⟩
      · exact ⟨hwithin a ⟨a, ha, Beneath.refl⟩, hmiddle.inner a ha⟩
    have hkeeps := hmiddle.loosened.keeps.trans (Keeps.detachAll middle.tree [statement])
    have hpart : ∀ part ∈ partsOfAll expansion.statements, s.tree.Within statement part.node :=
      fun part hmem =>
      hwithin _ (hmiddle.strewn.beneath part hmem)
    have hhas : ∀ part ∈ partsOfAll expansion.statements, s.tree.HasSlot part.node :=
      fun part hmem =>
      (hstatement.beneath (hpart part hmem).1).intact.hasSlot
    have hleaves : ∀ part ∈ partsOfAll expansion.statements, (s.tree.node part.node).kids = [] →
        ((middle.tree.detachAll [statement]).node part.node).kids = [] := by
      intro part hmem hleaf
      rw [(grown_detachAll _ _).same _ (hmiddle.loosened.keeps.has (hhas part hmem).has) |>.2,
        hmiddle.loosened.kids_eq (hhas part hmem).has fun hbad =>
          (hparted _ hbad).2 (congrArg allKids hleaf), hleaf]
    have hready :
      PartsReady (middle.tree.detachAll [statement]) (partsOfAll expansion.statements) :=
      hmiddle.strewn.ready (fun step hstep => (hstands.child (hsub.subset hstep)).intact)
        (fun _ => hkeeps.hasSlot) hleaves
    have hposition : middle.tree.position statement = s.tree.position statement :=
      congrArg Face.position (hmiddle.loosened.face_eq hstatement.has)
    have hparts : (Draft.block expansion.statements (s.tree.position statement)).parts =
      partsOfAll expansion.statements := by
      simp [Draft.block]
    apply EndsUnless.bind
    apply EndsUnless.tree
    apply EndsUnless.bind
    rw [hposition]
    refine EndsUnless.edit (fun block after hreplace => ?_) fun hnone => ?_
    · obtain ⟨hturned, hreads⟩ :=
        hmiddle.loosened.replace_turned htidy hstatement (fun a ha => (hparted a ha).1) hwithin
        (by simp [Draft.block, Shape.kind, NodeKind.layout, hmiddle.laid]) (by rwa [hparts]) (by
          intro part hmem a hcovers _
          rw [hparts] at hmem
          rw [hmiddle.strewn.covers_eq hleaves hmem hcovers]
          exact (hpart part hmem).1) hreplace
      obtain ⟨terms, statements, hterms, hstatements, hexpands⟩ := hmiddle.expands
      refine ⟨block, terms, expansion.locals, statements, hturned, hterms, hexpands, hreads _ ?_ ?_⟩
      · exact drafts_fresh_iff.mpr ⟨⟨rfl, rfl⟩, .cons ⟨rfl, .many hstatements⟩ .nil⟩
      · rw [hparts]
        refine ⟨hready, fun part hmem => hkeeps.hasSlot (hhas part hmem), fun _ => hkeeps.has,
          fun part hmem => ?_, ?_⟩
        · exact ((grown_detachAll _ _).same _
            (hmiddle.loosened.keeps.has (hhas part hmem).has)).1.trans
            (hmiddle.loosened.face_eq (hhas part hmem).has)
        · intro top hmem
          exact hleaves _ hmem ((hmiddle.strewn.alone _ hmem).resolve_left (by simp))
    · cases hup : s.tree.parent statement with
      | none => exact htop hup
      | some p =>
        obtain ⟨hp, hlisted⟩ := hstatement.of_parent hup
        have hoff : ¬s.tree.Beneath statement p := hp.intact.not_beneath_of_child hlisted
        have hsame : middle.tree.node p = s.tree.node p := hmiddle.loosened.frame hp.has
          (fun hbad => hoff (hparted p hbad).1.1) fun hbad => hoff (hwithin p hbad).1
        have hparent : middle.tree.parent statement = some p :=
          (hmiddle.loosened.parent_eq hstatement.has fun hbad =>
            (hwithin statement hbad).2 rfl).trans hup
        obtain ⟨result, hresult⟩ :=
          exists_replace (Draft.block expansion.statements (s.tree.position statement)) hparent
          (by rwa [children, hsame])
        exact absurd hresult (hnone result)

theorem assignmentRule_visits {visit : NodeId → Pass Unit} (hvisit : Visits Reach visit) :
    Visits Reach (assignmentRule visit) := by
  intro s id htidy hid
  have hunchanged := descend_finish hvisit htidy hid (Spared.refl _ s.tree)
  refine Yields.read ?_
  simp only
  split
  · split
    · rename_i expression hfound
      obtain ⟨hexpression, hsteps⟩ := Option.filter_eq_some_iff.mp hfound
      simp only [isEvalOfAssignments, Bool.and_eq_true, Bool.not_eq_true',
        isEmpty_eq_false_iff] at hsteps
      have hends : EndsUnless True (expand id (s.tree.listed expression .arguments)) s
        fun _ after =>
          Expanded s.tree after.tree id (s.tree.listed expression .arguments) :=
        expand_ends htidy hid hexpression hsteps.1.2 (all_eq_true.mp hsteps.2) (fun _ _ _ =>
          trivial) fun _ => trivial
      refine hends.yields.mono ?_
      rintro _ after ⟨block, _, _, _, hturned, _⟩
      exact hturned.spared
    · exact hunchanged
  · split
    · refine Yields.bind (Yields.flag fun middle hmiddle => ?_)
      refine descend_finish hvisit htidy hid ?_
      rw [hmiddle]
      exact Spared.refl _ s.tree
    · exact hunchanged
  · exact hunchanged

end ValueType

end UnitySharp
