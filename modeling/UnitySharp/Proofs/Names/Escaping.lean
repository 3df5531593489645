import UnitySharp.Code.Printer
import UnitySharp.Proofs.Convert.Twice

/-!
# Names that agree after escaping

Keywords get a marker in front wherever they name something.  Afterwards no name is a keyword,
different names stay different, and a type is called the same by its definition, by every reference
to it and in every spelling.  The pass changes nothing but the names of the nodes beneath the root,
in one way for the whole tree.
-/

namespace UnitySharp

open UnitySharp.Tree List

variable {s : Session} {t u : Tree} {id a b : NodeId} {table : List (String × String)} {name : Name}
  {f : String → String} {word : String}

namespace ReservedWords

open Pass

variable {visit : NodeId → Pass Unit} {shape : Shape} {D : NodeId → Prop} {depth : Nat}

/-! ## Names before and after -/

def Unmarked (name : Name) : Prop :=
  ∃ key, name.key? = .ok key ∧ ∀ word, key = some word → word.toList.head? ≠ some '@'

theorem escaped_inj {first second : String} (hfirst : first.toList.head? ≠ some '@')
    (hsecond : second.toList.head? ≠ some '@') (h : escaped first = escaped second) :
      first = second := by
  unfold escaped at h
  split at h
  · split at h
    · have hchars := congrArg String.toList h
      simp only [String.toList_append, append_cancel_left_eq] at hchars
      exact String.toList_inj.mp hchars
    · rw [← h] at hsecond
      simp at hsecond
  · split at h
    · rw [h] at hfirst
      simp at hfirst
    · exact h

theorem mapText_escaped_inj {first second : Name} (hfirst : Unmarked first)
    (hsecond : Unmarked second) :
    first.mapText escaped = second.mapText escaped ↔ first = second := by
  constructor
  · intro h
    obtain ⟨key, hkey, hplain⟩ := hfirst
    obtain ⟨key', hkey', hplain'⟩ := hsecond
    cases first with
    | text word =>
      cases second with
      | text word' =>
        cases hkey
        cases hkey'
        simp only [Name.mapText, Name.text.injEq] at h
        rw [escaped_inj (hplain word rfl) (hplain' word' rfl) h]
      | other value => cases h
    | other value =>
      cases second with
      | text word => cases h
      | other value' => simpa [Name.mapText] using h
  · intro h
    rw [h]

theorem isAmong_mapText_escaped (name : Name) :
    (name.mapText escaped).isAmong reserved = false := by
  cases name with
  | text word => exact not_reserved_escaped word
  | other value => rfl

def respelled (table : List (String × String)) (shape : Shape) : Shape :=
  match renaming? table shape with
  | some f => shape.mapName fun name => name.mapText f
  | none => shape

theorem respelled_respelled (h : Renames table) (shape : Shape) :
    respelled table (respelled table shape) = respelled table shape := by
  cases hf : renaming? table shape with
  | none => simp [respelled, hf]
  | some f =>
    have htwice : ∀ g : Name → Name, (∀ name, g (g name) = g name) →
        (shape.mapName g).mapName g = shape.mapName g := by
      intro g hg
      cases shape <;> simp [Shape.mapName, hg]
    simp only [respelled, hf, renaming?_mapName]
    apply htwice
    exact mapText_mapText fun word => renaming?_idempotent h hf word

/-- The name of a node that may not be a keyword: the name of a type, of one of its members, of a
parameter or a variable, or a reference to something that is not a type. -/
def guardedName? : Shape → Option Name
  | .typeDef name _ _ _ _ | .enumMember name | .field name _ _ | .parameter name _ _ | .declaration
    name _
  | .memberAccess name _ _ => some name
  | .method head | .constructor head => some head.name
  | .reference name (some symbol) _ =>
    match symbol.kind with
    | .field | .parameter | .property | .method | .localVariable => some name
    | _ => none
  | _ => none

theorem guardedName?_respelled (table : List (String × String)) (shape : Shape) :
    guardedName? (respelled table shape) = (guardedName? shape).map fun name =>
      name.mapText escaped := by
  cases shape with
  | reference name symbol type =>
    cases symbol with
    | none => rfl
    | some symbol =>
      cases hkind : symbol.kind <;> simp [respelled, renaming?, escapedKinds, guardedName?,
        Shape.mapName, hkind]
  | _ => rfl

theorem name?_of_guardedName? (h : guardedName? shape = some name) : shape.name? = some name := by
  unfold guardedName? at h
  split at h
  case h_9 word symbol type =>
    split at h
    case h_6 => cases h
    all_goals exact h
  case h_10 => cases h
  all_goals exact h

/-! ## The run of the pass -/

/-- From one tree to the next, the nodes of a set have been respelled, and nothing else has
changed. -/
structure Respells (table : List (String × String)) (D : NodeId → Prop) (t u : Tree) : Prop where
  size_eq : u.size = t.size
  root_eq : u.root = t.root
  renamed_eq : u.renamed = t.renamed
  has : ∀ a, u.Has a ↔ t.Has a
  hasSlot : ∀ a, u.HasSlot a ↔ t.HasSlot a
  inside : ∀ a, D a → u.node a = { t.node a with shape := respelled table (t.shape a) }
  outside : ∀ a, ¬D a → u.node a = t.node a

namespace Respells

variable {E : NodeId → Prop} {v : Tree}

section

variable (h : Respells table D t u)

include h

theorem node_eq (a : NodeId) : ∃ shape, u.node a = { t.node a with shape } := by
  by_cases ha : D a
  · exact ⟨_, h.inside a ha⟩
  · exact ⟨(t.node a).shape, h.outside a ha⟩

theorem shape_eq (a : NodeId) :
    u.shape a = respelled table (t.shape a) ∨ u.shape a = t.shape a := by
  by_cases ha : D a
  · exact Or.inl (congrArg Node.shape (h.inside a ha))
  · exact Or.inr (congrArg Node.shape (h.outside a ha))

theorem children_eq (a : NodeId) : u.children a = t.children a := by
  obtain ⟨shape, heq⟩ := h.node_eq a
  simp only [children, heq, Node.children]

theorem parent_eq (a : NodeId) : u.parent a = t.parent a := by
  obtain ⟨shape, heq⟩ := h.node_eq a
  simp only [parent, heq]

theorem beneath_iff : u.Beneath id a ↔ t.Beneath id a :=
  ⟨fun hbelow => hbelow.of_transfer fun b _ => h.children_eq b, fun hbelow => hbelow.transfer
    fun b _ => h.children_eq b⟩

theorem intact (hid : t.Intact id) : u.Intact id :=
  hid.transfer (fun a => (h.hasSlot a).mpr) (fun a _ => h.children_eq a) fun a _ => h.parent_eq a

end

theorem nothing (table : List (String × String)) (t : Tree) :
    Respells table (fun _ => False) t t where
  size_eq := rfl
  root_eq := rfl
  renamed_eq := rfl
  has := fun _ => Iff.rfl
  hasSlot := fun _ => Iff.rfl
  inside := fun _ hfalse => hfalse.elim
  outside := fun _ _ => rfl

theorem trans (htable : Renames table) (h : Respells table D t u) (h' : Respells table E u v) :
    Respells table (fun a => D a ∨ E a) t v where
  size_eq := h'.size_eq.trans h.size_eq
  root_eq := h'.root_eq.trans h.root_eq
  renamed_eq := h'.renamed_eq.trans h.renamed_eq
  has := fun a => (h'.has a).trans (h.has a)
  hasSlot := fun a => (h'.hasSlot a).trans (h.hasSlot a)
  inside := by
    intro a ha
    by_cases hE : E a
    · rw [h'.inside a hE]
      by_cases hD : D a
      · simp only [shape, h.inside a hD, respelled_respelled htable]
      · simp only [shape, h.outside a hD]
    · rw [h'.outside a hE]
      exact h.inside a (ha.resolve_right hE)
  outside := by
    intro a ha
    rw [h'.outside a fun hE => ha (Or.inr hE), h.outside a fun hD => ha (Or.inl hD)]

theorem congr (h : Respells table D t u) (hiff : ∀ a, D a ↔ E a) : Respells table E t u where
  size_eq := h.size_eq
  root_eq := h.root_eq
  renamed_eq := h.renamed_eq
  has := h.has
  hasSlot := h.hasSlot
  inside := fun a ha => h.inside a ((hiff a).mpr ha)
  outside := fun a ha => h.outside a fun hD => ha ((hiff a).mp hD)

theorem setShape (table : List (String × String)) (hid : t.Has id) :
    Respells table (fun a => a = id) t (t.setShape id (respelled table (t.shape id))) where
  size_eq := size_update ..
  root_eq := root_update ..
  renamed_eq := by cases id <;> rfl
  has := fun a => has_update ..
  hasSlot := fun a => hasSlot_update ..
  inside := by
    intro a ha
    rw [ha, Tree.setShape, node_update_self hid]
  outside := fun a ha => node_update_ne t ha _

end Respells

/-- What a visit relies on: links that hold, the table, references without children, and names that
can be looked up. -/
structure Fit (table : List (String × String)) (t : Tree) (id : NodeId) : Prop where
  intact : t.Intact id
  renamed : t.renamed = table
  leaf : ∀ a, t.Beneath id a → t.kind a = .reference → t.children a = []
  known : ∀ a name, t.Beneath id a → (t.shape a).name? = some name → ∃ key, name.key? = .ok key

theorem kind_respelled (table : List (String × String)) (shape : Shape) :
    (respelled table shape).kind = shape.kind := by
  unfold respelled
  split
  · exact kind_mapName _ _
  · rfl

theorem known_respelled (hname : (respelled table shape).name? = some name)
    (h : ∀ name, shape.name? = some name → ∃ key, name.key? = .ok key) : ∃ key,
      name.key? = .ok key := by
  unfold respelled at hname
  split at hname
  · rw [Shape.name?_mapName, Option.map_eq_some_iff] at hname
    obtain ⟨old, hold, rfl⟩ := hname
    cases old with
    | text word => exact ⟨_, rfl⟩
    | other value => exact h _ hold
  · exact h name hname

namespace Fit

theorem child {c : NodeId} (h : Fit table t id) (hc : c ∈ t.children id) : Fit table t c where
  intact := h.intact.child hc
  renamed := h.renamed
  leaf := fun a hbelow => h.leaf a (hbelow.below_child hc)
  known := fun a name hbelow => h.known a name (hbelow.below_child hc)

theorem transfer (h : Fit table t id) (hrespells : Respells table D t u) : Fit table u id where
  intact := hrespells.intact h.intact
  renamed := hrespells.renamed_eq.trans h.renamed
  leaf := by
    intro a hbelow hkind
    rw [hrespells.children_eq]
    apply h.leaf a (hrespells.beneath_iff.mp hbelow)
    rcases hrespells.shape_eq a with heq | heq
    · rwa [kind, heq, kind_respelled] at hkind
    · rwa [kind, heq] at hkind
  known := by
    intro a name hbelow hname
    have hknown : ∀ name, (t.shape a).name? = some name → ∃ key, name.key? = .ok key := by
      intro name
      exact h.known a name (hrespells.beneath_iff.mp hbelow)
    rcases hrespells.shape_eq a with heq | heq
    · rw [heq] at hname
      exact known_respelled hname hknown
    · rw [heq] at hname
      exact hknown name hname

end Fit

theorem Respells.untouched (h : renaming? table (t.shape id) = none) :
    Respells table (fun a => a = id) t t where
  size_eq := rfl
  root_eq := rfl
  renamed_eq := rfl
  has := fun _ => Iff.rfl
  hasSlot := fun _ => Iff.rfl
  inside := by
    intro a ha
    rw [ha, respelled, h]
    rfl
  outside := fun _ _ => rfl

theorem rename_ends (hfit : Fit table s.tree id) (hf : renaming? table (s.tree.shape id) = some f) :
    Ends (Pass.rename id f) s fun _ after =>
      Respells table (fun a => a = id) s.tree after.tree := by
  have hresult := Respells.setShape table hfit.intact.has
  have hrespelled : respelled table (s.tree.shape id) = (s.tree.shape id).mapName fun name =>
    name.mapText f := by
    simp only [respelled, hf]
  rw [hrespelled] at hresult
  have hstays : (∀ name, (s.tree.shape id).name? = some name → name.mapText f = name) →
      Respells table (fun a => a = id) s.tree s.tree := by
    intro hsame
    rwa [Shape.mapName_eq_self hsame, Tree.setShape, update_self rfl] at hresult
  apply Ends.bind
  apply Ends.tree
  split
  · rename_i name hname
    obtain ⟨key, hkey⟩ := hfit.known id name .refl hname
    apply Ends.bind
    apply Ends.ofExcept hkey
    cases key with
    | some word => exact Ends.change hresult
    | none =>
      -- A name that is no text stays as it is.
      apply Ends.pure
      apply hstays
      intro other hother
      rw [hname] at hother
      cases hother
      cases name with
      | text word => cases hkey
      | other value => rfl
  · rename_i hnone
    apply Ends.pure
    apply hstays
    intro name hname
    rw [hnone] at hname
    cases hname

def VisitRespells (table : List (String × String)) (depth : Nat) (visit : NodeId → Pass Unit) :
    Prop :=
  ∀ s id, Fit table s.tree id → s.tree.Shallow depth id →
    Ends (visit id) s fun _ after => Respells table (s.tree.Beneath id) s.tree after.tree

theorem descend_respells (htable : Renames table) (hvisit : VisitRespells table depth visit)
    (hfit : Fit table s.tree id) (hdepth : s.tree.Shallow (depth + 1) id) :
    Ends (descend visit id) s fun _ after =>
      Respells table (fun a => ∃ c ∈ s.tree.children id, s.tree.Beneath c a) s.tree after.tree := by
  apply Ends.bind
  apply Ends.tree
  apply Ends.forM_along (fun done after =>
    Respells table (fun a => ∃ c ∈ done, s.tree.Beneath c a) s.tree after.tree)
  · exact (Respells.nothing table s.tree).congr fun a => by simp
  · intro before c rest hsplit middle hmiddle
    have hc : c ∈ s.tree.children id := by simp [hsplit]
    apply Ends.bind
    apply Ends.tree
    rw [if_pos (by rw [hmiddle.parent_eq, hfit.intact.parent_child hc]; exact beq_self_eq_true _)]
    apply (hvisit middle c ((hfit.child hc).transfer hmiddle)
      ((hdepth c hc).transfer fun a _ => hmiddle.children_eq a)).mono
    intro _ after hafter
    apply (hmiddle.trans htable hafter).congr
    intro a
    rw [hmiddle.beneath_iff]
    simp only [mem_append, mem_singleton, or_and_right, exists_or, exists_eq_left]

theorem beneath_iff_eq_or_child : t.Beneath id a ↔ a = id ∨ ∃ c ∈ t.children id, t.Beneath c a := by
  constructor
  · intro hbelow
    rcases hbelow.eq_or_child with heq | ⟨c, hc, hbelow⟩
    · exact Or.inl heq
    · exact Or.inr ⟨c, hc, hbelow⟩
  · rintro (rfl | ⟨c, hc, hbelow⟩)
    · exact .refl
    · exact hbelow.below_child hc

theorem rule_respells (htable : Renames table) (hvisit : VisitRespells table depth visit) :
    VisitRespells table (depth + 1) (rule visit) := by
  intro s id hfit hdepth
  -- The node itself comes first, whether it is renamed or not.
  have hdescend : ∀ middle, Respells table (fun a => a = id) s.tree middle.tree →
      Ends (descend visit id) middle fun _ after =>
        Respells table (s.tree.Beneath id) s.tree after.tree := by
    intro middle hmiddle
    apply (descend_respells htable hvisit (hfit.transfer hmiddle)
      (hdepth.transfer fun a _ => hmiddle.children_eq a)).mono
    intro _ after hafter
    apply (hmiddle.trans htable hafter).congr
    intro a
    rw [beneath_iff_eq_or_child, hmiddle.children_eq]
    simp only [hmiddle.beneath_iff]
  have hrename : renaming? table (s.tree.shape id) = some escaped →
      Ends (do Pass.rename id escaped; descend visit id) s fun _ after =>
        Respells table (s.tree.Beneath id) s.tree after.tree := by
    intro hf
    apply Ends.bind
    apply (rename_ends hfit hf).mono
    intro _ middle hmiddle
    exact hdescend middle hmiddle
  have hleaf : s.tree.kind id = .reference → ∀ u, Respells table (fun a => a = id) s.tree u →
      Respells table (s.tree.Beneath id) s.tree u := by
    intro hkind u hu
    apply hu.congr
    intro a
    rw [beneath_iff_eq_or_child, hfit.leaf id .refl hkind]
    simp
  apply Ends.bind
  apply Ends.tree
  split
  case h_9 name symbol type hshape =>
    have hkind : s.tree.kind id = .reference := by rw [kind, hshape]; rfl
    split
    · rename_i hescaped
      apply (rename_ends hfit (by rw [hshape]; exact if_pos hescaped)).mono
      intro _ after hafter
      exact hleaf hkind after.tree hafter
    · rename_i hescaped
      split
      · rename_i htype
        have hcurrent : currentName s.tree = renamedBy table := by
          rw [← hfit.renamed]
          rfl
        rw [hcurrent]
        apply (rename_ends hfit (by rw [hshape]; exact (if_neg hescaped).trans (if_pos htype))).mono
        intro _ after hafter
        exact hleaf hkind after.tree hafter
      · rename_i htype
        apply Ends.pure
        apply hleaf hkind
        apply Respells.untouched
        rw [hshape]
        exact (if_neg hescaped).trans (if_neg htype)
  case h_10 hother =>
    apply hdescend s
    apply Respells.untouched
    unfold renaming?
    split <;> grind
  all_goals
    rename_i hshape
    apply hrename
    rw [hshape]
    rfl

theorem visitWithin_respells (htable : Renames table) (depth : Nat) :
    VisitRespells table depth (visitWithin rule depth) := by
  induction depth with
  | zero =>
    intro s id _ hdepth
    exact hdepth.elim
  | succ depth ih => exact rule_respells htable ih

theorem shallow_mono {more : Nat} (h : t.Shallow depth id) (hle : depth ≤ more) :
    t.Shallow more id := by
  induction hle with
  | refl => exact h
  | step _ ih => exact ih.succ

theorem everywhere_respells (htable : Renames table) (hfit : Fit table s.tree s.tree.root) :
    Ends (everywhere rule) s fun _ after => Respells table (s.tree.Beneath s.tree.root) s.tree
      after.tree := by
  apply Ends.bind
  apply Ends.tree
  apply visitWithin_respells htable _ s s.tree.root hfit
  apply shallow_mono hfit.intact.shallow
  omega

/-! ## The table -/

theorem renamedBy_of_reserved (h : Renames table) (hlisted : ∃ entry ∈ table, entry.1 = word) :
    renamedBy table word = escaped word := by
  obtain ⟨entry, hentry, hword⟩ := hlisted
  cases hfound : List.lookup word table with
  | none =>
    have hother := lookup_eq_none_iff.mp hfound entry hentry
    rw [hword, bne_self_eq_false] at hother
    cases hother
  | some new =>
    obtain ⟨before, after, rfl, _⟩ := lookup_eq_some_iff.mp hfound
    rw [renamedBy, hfound, Option.getD_some]
    exact (h (word, new) (by simp)).2

theorem renamedBy_eq_or (h : Renames table) (word : String) :
    renamedBy table word = word ∨ renamedBy table word = escaped word := by
  by_cases hlisted : ∃ entry ∈ table, entry.1 = word
  · exact Or.inr (renamedBy_of_reserved h hlisted)
  · left
    have hnone : List.lookup word table = none := by
      rw [lookup_eq_none_iff]
      intro entry hentry
      rw [bne_iff_ne]
      rintro rfl
      exact hlisted ⟨entry, hentry, rfl⟩
    rw [renamedBy, hnone, Option.getD_none]

theorem listed_noteRenaming {name : String}
    (h : (∃ entry ∈ t.renamed, entry.1 = word) ∨ word = name) :
    ∃ entry ∈ (noteRenaming t name).renamed, entry.1 = word := by
  unfold noteRenaming
  split
  · rename_i hany
    have hold : ∃ entry ∈ t.renamed, entry.1 = word := by
      rcases h with hold | rfl
      · exact hold
      · simpa using hany
    obtain ⟨entry, hentry, rfl⟩ := hold
    refine ⟨_, mem_map_of_mem hentry, ?_⟩
    split
    · rename_i heq
      exact (eq_of_beq heq).symm
    · rfl
  · rcases h with ⟨entry, hentry, heq⟩ | rfl
    · exact ⟨entry, mem_append_left _ hentry, heq⟩
    · exact ⟨_, mem_append_right _ (mem_singleton_self _), rfl⟩

theorem learnRenamings_ends (hfit : Fit table s.tree s.tree.root) (htable : Renames table) :
    Ends learnRenamings s fun _ after => ∃ learned,
      after.tree = { s.tree with renamed := learned } ∧ Renames learned ∧ ∀ a word,
        s.tree.Beneath s.tree.root a → reservedName? s.tree a = .ok (some word) → ∃ entry ∈ learned,
        entry.1 = word := by
  apply Ends.bind
  apply Ends.tree
  refine (Ends.forM_along
    (fun done after => ∃ learned, after.tree = { s.tree with renamed := learned } ∧
      Renames learned ∧ ∀ a ∈ done, ∀ word, reservedName? s.tree a = .ok (some word) →
      ∃ entry ∈ learned, entry.1 = word) ?_ ?_).mono ?_
  · refine ⟨s.tree.renamed, rfl, ?_, by simp⟩
    rwa [hfit.renamed]
  · rintro before a rest hsplit middle ⟨learned, htree, hlearned, hlisted⟩
    have hbelow : s.tree.Beneath s.tree.root a := beneath_of_mem_walk (by rw [hsplit]; simp)
    obtain ⟨found, hfound⟩ : ∃ found, reservedName? s.tree a = .ok found := by
      unfold reservedName?
      split
      · rename_i name _ _ _ _ hshape
        obtain ⟨key, hkey⟩ := hfit.known a name hbelow (by rw [hshape]; rfl)
        rw [hkey]
        exact ⟨_, rfl⟩
      · exact ⟨none, rfl⟩
    apply Ends.bind
    apply Ends.ofExcept hfound
    cases found with
    | none =>
      apply Ends.pure
      refine ⟨learned, htree, hlearned, fun b hb word hword => ?_⟩
      rcases mem_append.mp hb with hold | hnew
      · exact hlisted b hold word hword
      · rw [mem_singleton.mp hnew, hfound] at hword
        cases hword
    | some name =>
      apply Ends.change
      refine ⟨(noteRenaming middle.tree name).renamed, ?_, ?_, fun b hb word hword => ?_⟩
      · show noteRenaming middle.tree name = _
        rw [htree]
        unfold noteRenaming
        split <;> rfl
      · apply noteRenaming_renames _ (reserved_of_reservedName? hfound)
        rwa [htree]
      · apply listed_noteRenaming
        rcases mem_append.mp hb with hold | hnew
        · left
          rw [htree]
          exact hlisted b hold word hword
        · right
          rw [mem_singleton.mp hnew, hfound] at hword
          cases hword
          rfl
  · rintro _ after ⟨learned, htree, hlearned, hlisted⟩
    refine ⟨learned, htree, hlearned, fun a word hbelow => hlisted a ?_ word⟩
    exact mem_walk_of_beneath hfit.intact.shallow hbelow

end ReservedWords

/-! ## Types in code -/

inductive TypePiece where
  | name (s : String)
  | sign (s : String)
deriving DecidableEq, Repr

mutual

def Ty.pieces : Ty → List TypePiece
  | .simple name kind _ => if kind = .arrayType then [.sign "object[]"] else [.name name]
  | .generic name kind arguments =>
    if kind = .arrayType then [.sign "object[]"]
    else .name name :: .sign "<" :: (Ty.piecesOfAll arguments ++ [.sign ">"])
  | .array element rank => Ty.pieces element ++ [.sign (Ty.brackets rank)]

def Ty.piecesOfAll : List Ty → List TypePiece
  | [] => []
  | [type] => Ty.pieces type
  | type :: rest => Ty.pieces type ++ .sign ", " :: Ty.piecesOfAll rest

end

/-- Pieces put together, each name as it is to be spelled. -/
def joinPieces (spelled : String → String) : List TypePiece → String
  | [] => ""
  | .name s :: rest => spelled s ++ joinPieces spelled rest
  | .sign s :: rest => s ++ joinPieces spelled rest

theorem joinPieces_append (spelled : String → String) (first second : List TypePiece) :
    joinPieces spelled (first ++ second) = joinPieces spelled first ++ joinPieces spelled
      second := by
  induction first with
  | nil => simp [joinPieces]
  | cons piece rest ih => cases piece <;> simp [joinPieces, ih, String.append_assoc]

mutual

theorem Ty.code_eq_joinPieces (renamed : List (String × String)) :
    ∀ type : Ty, type.code renamed = joinPieces (renamedTo renamed) type.pieces
  | .simple name kind _ => by
      simp only [code, pieces]
      split <;> simp [joinPieces]
  | .generic name kind arguments => by
      simp only [code, pieces, Ty.codes_eq_joinPieces renamed arguments]
      split
      · simp [joinPieces]
      · simp [joinPieces, joinPieces_append, String.append_assoc]
  | .array element rank => by
      simp only [code, pieces, Ty.code_eq_joinPieces renamed element, joinPieces_append]
      simp [joinPieces]

theorem Ty.codes_eq_joinPieces (renamed : List (String × String)) :
    ∀ types : List Ty, Ty.codes renamed types = joinPieces (renamedTo renamed)
      (Ty.piecesOfAll types)
  | [] => rfl
  | [type] => Ty.code_eq_joinPieces renamed type
  | type :: other :: rest => by
      simp only [codes, piecesOfAll, joinPieces_append, joinPieces,
        Ty.code_eq_joinPieces renamed type, Ty.codes_eq_joinPieces renamed (other :: rest),
        String.append_assoc]

end

namespace ReservedWords

open Pass

theorem renamedTo_eq_renamedBy (table : List (String × String)) (name : String) :
    renamedTo table name = renamedBy table name := by
  induction table with
  | nil => rfl
  | cons entry rest ih =>
    obtain ⟨old, new⟩ := entry
    simp only [renamedTo, renamedBy, lookup_cons, ih]
    by_cases h : old = name
    · simp [h]
    · have hne : (name == old) = false := by simpa using Ne.symm h
      simp [h, hne]

/-- Between the tree before and the tree after: no keyword is a name any more, names agree exactly
if they did before, and there is one spelling for the names of types, in their definitions, in the
types that are written and in the references to types and their constructors. -/
structure InAgreement (spelled : String → String) (t u : Tree) : Prop where
  free : ∀ a name, u.Beneath u.root a → guardedName? (u.shape a) = some name →
    name.isAmong reserved = false
  faithful : ∀ a b first second, t.Beneath t.root a → t.Beneath t.root b →
    guardedName? (t.shape a) = some first → guardedName? (t.shape b) = some second →
      ∃ first' second', guardedName? (u.shape a) = some first' ∧
      guardedName? (u.shape b) = some second' ∧ (first' = second' ↔ first = second)
  spelled_eq_or : ∀ word, spelled word = word ∨ spelled word = escaped word
  typeDef : ∀ a name kind modifiers type close, t.Beneath t.root a →
    t.shape a = .typeDef name kind modifiers type close →
      u.shape a = .typeDef (name.mapText spelled) kind modifiers type close
  typeRef : ∀ a type, t.Beneath t.root a → t.shape a = .typeRef (some type) →
    (u.marks a).map withoutComments = .ok [.text (joinPieces spelled type.pieces)]
  reference : ∀ a name symbol type, t.Beneath t.root a →
    t.shape a = .reference name (some symbol) type → symbol.kind = .type ∨
      symbol.kind = .constructor →
      (u.marks a).map withoutComments = .ok [.name (name.mapText spelled)]

theorem marks_withoutComments {marks : List Mark}
    (h : ∀ emitIn, Printer.nodeMarks u emitIn false a = .ok marks) :
    (u.marks a).map withoutComments = .ok (withoutComments marks) := by
  have hcomments : withoutComments (Printer.commentMarks (u.node a)) = [] := by
    unfold Printer.commentMarks withoutComments
    split
    · rfl
    · rw [filter_eq_nil_iff]
      intro mark hmark
      obtain ⟨comment, _, rfl⟩ := mem_map.mp hmark
      simp
  have hmarks : u.marks a = .ok (Printer.commentMarks (u.node a) ++ marks) := by
    rw [Tree.marks, Printer.marksWithin, h]
    rfl
  rw [hmarks]
  show Except.ok (withoutComments (_ ++ marks)) = _
  rw [withoutComments, filter_append]
  exact congrArg Except.ok (congrArg (· ++ withoutComments marks) hcomments)

theorem nodeMarks_typeRef {type : Ty} (h : u.shape a = .typeRef (some type))
    (emitIn : Bool → Printer.Emit) :
    Printer.nodeMarks u emitIn false a =
      .ok [.text (joinPieces (renamedTo u.renamed) type.pieces)] := by
  rw [← Ty.code_eq_joinPieces]
  simp only [Printer.nodeMarks, show (u.node a).shape = _ from h]
  rfl

theorem nodeMarks_reference {symbol : Symbol} {type : Option Ty}
    (h : u.shape a = .reference name (some symbol) type)
    (hkind : symbol.kind = .type ∨ symbol.kind = .constructor) (hname : ∃ key, name.key? = .ok key)
    (emitIn : Bool → Printer.Emit) :
    Printer.nodeMarks u emitIn false a = .ok [.name (name.mapText (renamedTo u.renamed))] := by
  obtain ⟨key, hkey⟩ := hname
  simp only [Printer.nodeMarks, show (u.node a).shape = _ from h]
  rw [Printer.referenceMarks, if_pos (by simpa using hkind), hkey]
  cases name with
  | text word =>
    cases hkey
    rfl
  | other value =>
    have hnone : key = none := by
      unfold Name.key? at hkey
      split at hkey
      · rename_i hother
        cases hother
      · split at hkey <;> cases hkey
        rfl
    rw [hnone]
    rfl

theorem mapText_congr {g : String → String} (h : ∀ word, name = .text word → f word = g word) :
    name.mapText f = name.mapText g := by
  cases name with
  | text word => exact congrArg Name.text (h word rfl)
  | other value => rfl

theorem escaped_eq_renamedBy (htable : Renames table)
    (hlisted : reserved.contains word = true → ∃ entry ∈ table, entry.1 = word) :
    escaped word = renamedBy table word := by
  by_cases hreserved : reserved.contains word = true
  · exact (renamedBy_of_reserved htable (hlisted hreserved)).symm
  · have hsame : escaped word = word := if_neg hreserved
    rcases renamedBy_eq_or htable word with heq | heq
    · rw [heq, hsame]
    · exact heq.symm

theorem inAgreement_of_respelled (htable : Renames u.renamed)
    (hbeneath : ∀ a, u.Beneath u.root a ↔ t.Beneath t.root a)
    (hshape : ∀ a, t.Beneath t.root a → u.shape a = respelled u.renamed (t.shape a))
    (hlisted : ∀ a word, t.Beneath t.root a → reservedName? t a = .ok (some word) →
      ∃ entry ∈ u.renamed, entry.1 = word)
    (hnames : ∀ a name, t.Beneath t.root a → (t.shape a).name? = some name → Unmarked name) :
    InAgreement (renamedTo u.renamed) t u where
  free := by
    intro a name hbelow hname
    rw [hshape a ((hbeneath a).mp hbelow), guardedName?_respelled, Option.map_eq_some_iff] at hname
    obtain ⟨old, _, rfl⟩ := hname
    exact isAmong_mapText_escaped old
  faithful := by
    intro a b first second ha hb hfirst hsecond
    refine ⟨first.mapText escaped, second.mapText escaped, ?_, ?_, ?_⟩
    · rw [hshape a ha, guardedName?_respelled, hfirst]
      rfl
    · rw [hshape b hb, guardedName?_respelled, hsecond]
      rfl
    · exact mapText_escaped_inj (hnames a first ha (name?_of_guardedName? hfirst))
        (hnames b second hb (name?_of_guardedName? hsecond))
  spelled_eq_or := by
    intro word
    rw [renamedTo_eq_renamedBy]
    exact renamedBy_eq_or htable word
  typeDef := by
    intro a name kind modifiers type close hbelow hbefore
    rw [hshape a hbelow, hbefore]
    show Shape.typeDef (name.mapText escaped) kind modifiers type close = _
    congr 1
    apply mapText_congr
    intro word hword
    rw [renamedTo_eq_renamedBy]
    apply escaped_eq_renamedBy htable
    intro hreserved
    apply hlisted a word hbelow
    rw [reservedName?, hbefore, hword]
    show Except.ok (Option.filter reserved.contains (some word)) = _
    rw [Option.filter_some_pos hreserved]
  typeRef := by
    intro a type hbelow hbefore
    have hafter : u.shape a = .typeRef (some type) := by
      rw [hshape a hbelow, hbefore]
      rfl
    exact marks_withoutComments (nodeMarks_typeRef hafter)
  reference := by
    intro a name symbol type hbelow hbefore hkind
    obtain ⟨key, hkey, _⟩ := hnames a name hbelow (by rw [hbefore]; rfl)
    have hescaped : ¬escapedKinds.contains symbol.kind = true := by
      rcases hkind with h | h <;> rw [h] <;> decide
    rcases hkind with htype | hconstructor
    · -- The node has its new name already, and writing it looks the name up once more.
      have hafter : u.shape a = .reference (name.mapText (renamedBy u.renamed)) (some symbol)
        type := by
        rw [hshape a hbelow, hbefore, respelled, renaming?, if_neg hescaped,
          if_pos (by simp [htype])]
        rfl
      have hknown : ∃ key, (name.mapText (renamedBy u.renamed)).key? = .ok key := by
        cases name with
        | text word => exact ⟨_, rfl⟩
        | other value => exact ⟨key, hkey⟩
      have htwice : (name.mapText (renamedBy u.renamed)).mapText (renamedTo u.renamed) =
          name.mapText (renamedTo u.renamed) := by
        rw [funext (renamedTo_eq_renamedBy u.renamed)]
        exact mapText_mapText (renamedBy_renamedBy htable) name
      rw [← htwice]
      exact marks_withoutComments (nodeMarks_reference hafter (Or.inl htype) hknown)
    · have hafter : u.shape a = .reference name (some symbol) type := by
        rw [hshape a hbelow, hbefore, respelled, renaming?, if_neg hescaped,
          if_neg (by simp [hconstructor])]
      exact marks_withoutComments (nodeMarks_reference hafter (Or.inr hconstructor) ⟨key, hkey⟩)

theorem fit_of_sound (hsound : t.Sound)
    (hnames : ∀ a name, t.Beneath t.root a → (t.shape a).name? = some name → Unmarked name) :
    Fit t.renamed t t.root where
  intact := hsound.intact
  renamed := rfl
  leaf := by
    intro a hbelow hkind
    have hroles := hsound.tidy a (hsound.intact.beneath hbelow).has
    rw [Laid, hkind] at hroles
    have hkids : (t.node a).kids = [] := map_eq_nil_iff.mp hroles
    rw [children, Node.children, hkids]
    rfl
  known := by
    intro a name hbelow hname
    obtain ⟨key, hkey, _⟩ := hnames a name hbelow hname
    exact ⟨key, hkey⟩

theorem Fit.withTable (h : Fit table t id) (learned : List (String × String)) :
    Fit learned { t with renamed := learned } id := by
  have hnode : ∀ a, Tree.node { t with renamed := learned } a = t.node a := by
    intro a
    cases a <;> rfl
  have hbeneath : ∀ a, Tree.Beneath { t with renamed := learned } id a ↔ t.Beneath id a := by
    intro a
    exact beneath_iff_of_same_nodes fun b _ => hnode b
  constructor
  · exact h.intact.of_same_nodes (fun a ha => by cases a <;> exact ha) fun a _ => hnode a
  · rfl
  · intro a hbelow hkind
    rw [kind, shape, hnode] at hkind
    rw [children, hnode]
    exact h.leaf a ((hbeneath a).mp hbelow) hkind
  · intro a name hbelow hname
    rw [shape, hnode] at hname
    exact h.known a name ((hbeneath a).mp hbelow) hname

/-- Where no name starts with a marker, escaping keywords comes to an end and leaves declarations
and uses in agreement. -/
theorem pass_inAgreement (hsound : s.tree.Sound) (htable : Renames s.tree.renamed)
    (hnames : ∀ a name, s.tree.Beneath s.tree.root a → (s.tree.shape a).name? = some name →
      Unmarked name) :
    ∃ after, pass s = .ok () after ∧ ∃ spelled, InAgreement spelled s.tree after.tree := by
  have hfit := fit_of_sound hsound hnames
  have hends : Ends pass s fun _ after => ∃ spelled, InAgreement spelled s.tree after.tree := by
    apply Ends.bind
    apply (learnRenamings_ends hfit htable).mono
    rintro _ middle ⟨learned, htree, hlearned, hlisted⟩
    have hnode : ∀ a, middle.tree.node a = s.tree.node a := by
      intro a
      rw [htree]
      cases a <;> rfl
    have hroot : middle.tree.root = s.tree.root := by rw [htree]
    have hbeneath : ∀ a, middle.tree.Beneath middle.tree.root a ↔ s.tree.Beneath s.tree.root a := by
      intro a
      rw [hroot]
      exact beneath_iff_of_same_nodes fun b _ => hnode b
    have hmiddle : Fit learned middle.tree middle.tree.root := by
      rw [hroot, htree]
      exact hfit.withTable learned
    apply (everywhere_respells hlearned hmiddle).mono
    intro _ after hafter
    have hrenamed : after.tree.renamed = learned := hafter.renamed_eq.trans hmiddle.renamed
    refine ⟨_, inAgreement_of_respelled ?_ ?_ ?_ ?_ hnames⟩
    · rwa [hrenamed]
    · intro a
      rw [hafter.root_eq, hafter.beneath_iff]
      exact hbeneath a
    · intro a hbelow
      rw [hrenamed, shape, hafter.inside a ((hbeneath a).mpr hbelow), shape, shape, hnode]
    · rwa [hrenamed]
  obtain ⟨_, after, hrun, hagree⟩ := hends
  exact ⟨after, hrun, hagree⟩

def isUnmarked (t : Tree) : Bool :=
  (t.walk t.root).all fun a =>
    match (t.shape a).name? with
    | some (.text word) => word.toList.head? != some '@'
    | some (.other value) => value.isKey
    | none => true

theorem unmarked_of_isUnmarked (h : isUnmarked t = true) (hsound : t.Sound)
    (hbelow : t.Beneath t.root a) (hname : (t.shape a).name? = some name) : Unmarked name := by
  have ha := all_eq_true.mp h a (mem_walk_of_beneath hsound.intact.shallow hbelow)
  rw [hname] at ha
  cases name with
  | text word =>
    refine ⟨some word, rfl, ?_⟩
    rintro _ ⟨⟩
    simpa using ha
  | other value =>
    have hkey : value.isKey = true := ha
    refine ⟨none, ?_, ?_⟩
    · rw [Name.key?, if_pos hkey]
    · rintro _ ⟨⟩

end ReservedWords

/-- A class `event` with a field that is an array of it, and a method with a parameter `lock` that
makes one. -/
def Json.escapingSample : Json :=
  .record [("types", .record [("event", .record [("kind", .text "class")])]),
    ("symbols", .record [("1", .record [("kind", .text "Constructor"), ("name", .text "event")]),
      ("2", .record [("kind", .text "Parameter"), ("name", .text "lock")])]),
    ("module", nodeOf "Module" [("members", .list [nodeOf "TypeDef" [("name", .text "event"),
      ("members", .list [
        nodeOf "Field" [("name", .text "all"),
          ("type_ref", nodeOf "TypeRef" [("type", .text "event[]")])],
        nodeOf "Method" [("name", .text "M"),
        ("params", .list [nodeOf "Parameter" [("name", .text "lock"),
          ("type_ref", nodeOf "TypeRef" [("type", .text "event")]), ("symbol", .int 2)]]),
        ("body", nodeOf "Block" [("statements", .list [nodeOf "ExpressionStatement" [("expr",
          nodeOf "BinaryOp" [("op", .text "="),
            ("left", nodeOf "Reference" [("name", .text "lock"), ("symbol", .int 2)]),
            ("right", nodeOf "Invocation" [("target",
              nodeOf "Reference" [("name", .text "event"), ("symbol", .int 1)])])])]])])]])]])])]

namespace ReservedWords

theorem pass_escapingSample : ∃ document after, readDocument Json.escapingSample .null =
    .ok document ∧ pass ⟨document.tree, .ofVerbosity 0 none⟩ = .ok () after ∧
      after.tree.renamed = [("event", "@event")] ∧ ∃ spelled,
      InAgreement spelled document.tree after.tree := by
  obtain ⟨document, after, hread, hrun, hcheck⟩ := Step.exists_of_runsWith
    (show Step.runsWith (fun t u =>
      isUnmarked t && decide (t.renamed = [] ∧ u.renamed = [("event", "@event")]))
      Json.escapingSample .escapeReservedWords = true by decide +kernel)
  rw [Bool.and_eq_true, decide_eq_true_eq] at hcheck
  have hsound := readDocument_sound hread
  obtain ⟨after', hrun', hagree⟩ := pass_inAgreement
    (s := ⟨document.tree, .ofVerbosity 0 none⟩) hsound (by simp [hcheck.2.1, Renames]) fun a name =>
    unmarked_of_isUnmarked hcheck.1 hsound
  have hsame : EStateM.Result.ok () after' = .ok () after := hrun'.symm.trans hrun
  cases hsame
  exact ⟨document, after, hread, hrun, hcheck.2.2, hagree⟩

end ReservedWords

end UnitySharp
