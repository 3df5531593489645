import UnitySharp.Document.Basic
import UnitySharp.Proofs.Tree.Numbered

/-!
# The tree of a document

Reading a document makes new nodes only.  So the tree of a document is sound, its slots follow the
walk, its nodes are bound to symbols from the document's own list, and no comment stands with them
yet.
-/

namespace UnitySharp

open UnitySharp.Tree

variable {kind : NodeKind} {given kids : Kids Draft} {role : Role} {draft : Draft}
  {position : Option Position} {fields : List (String × Json)}
  {readChild : Json → Except DocumentFault Draft} {Q : Draft → Prop}
  {symbols : List (String × Symbol)} {α β ε : Type} {attributes : GivenAttributes}
  {shape typed : Shape} {tree : Tree} {symbol : Symbol} {types : TypeTable} {reading : Nat}
  {key : String} {value source : Json} {reader : NodeReader} {document : Document}

theorem mem_of_mapM {f : α → Except ε β} {items : List α} {results : List β} {result : β}
    (h : items.mapM f = .ok results) (hresult : result ∈ results) : ∃ item ∈ items,
      f item = .ok result := by
  obtain ⟨item, hitem, hread⟩ := exists_of_forall₂ (forall₂_of_mapM h) hresult
  exact ⟨item, hitem, hread⟩

theorem forall₂_of_mapM_some {f : α → Option β} {items : List α} {results : List β}
    (h : items.mapM f = some results) :
    List.Forall₂ (fun item result => f item = some result) items results := by
  induction items generalizing results with
  | nil =>
    cases h
    exact .nil
  | cons item rest ih =>
    rw [List.mapM_cons] at h
    obtain ⟨first, hfirst, h⟩ := Option.bind_eq_some_iff.mp h
    obtain ⟨others, hothers, h⟩ := Option.bind_eq_some_iff.mp h
    cases h
    exact .cons hfirst (ih hothers)

/-! ## One node -/

theorem kind_of_shapeOf? (h : shapeOf? kind attributes = some shape) : shape.kind = kind := by
  cases kind <;>
    simp only [shapeOf?, Option.map_eq_some_iff, Option.bind_eq_bind, Option.bind_eq_some_iff,
      Option.some.injEq, reduceCtorEq] at h <;>
    grind [Shape.kind]

theorem kind_of_castType (h : castType tree shape kids = .ok typed) : typed.kind = shape.kind := by
  unfold castType at h
  split at h
  all_goals try split at h
  all_goals try split at h
  all_goals cases h
  all_goals simp [kind_withType]

theorem roleOccupants?_forall {plurality : Plurality} {occupants : Occupants Draft}
    (hblock : Q emptyBlock) (hgiven : ∀ draft ∈ allKids given, Q draft)
    (h : roleOccupants? kind given role plurality = some occupants) :
    ∀ draft ∈ occupants.toList, Q draft := by
  have hall : ∀ draft ∈ (kidsAt role given).toList, Q draft := fun draft hdraft =>
    hgiven draft ((kidsAt_sublist_allKids role given).subset hdraft)
  cases plurality with
  | list =>
    simp only [roleOccupants?] at h
    cases hkids : kidsAt role given <;> simp only [hkids, Option.some.injEq, reduceCtorEq] at h hall
    · simp [← h, Occupants.toList]
    · exact h ▸ hall
  | single =>
    simp only [roleOccupants?] at h
    cases hkids : kidsAt role given <;> simp only [hkids, Option.some.injEq] at h hall
    · split at h <;> cases h <;> simp [Occupants.toList, hblock]
    · exact h ▸ hall
    · exact h ▸ hall

theorem kidsOf?_forall (hblock : Q emptyBlock) (hgiven : ∀ draft ∈ allKids given, Q draft)
    (h : kidsOf? kind given = some kids) :
    kids.map Prod.fst = kind.layout.map Prod.fst ∧ ∀ draft ∈ allKids kids, Q draft := by
  unfold kidsOf? at h
  split at h
  · generalize kind.layout = layout at h ⊢
    have hall := forall₂_of_mapM_some h
    clear h
    induction hall with
    | nil => simp [allKids]
    | @cons entry result _ _ hfirst _ ih =>
      obtain ⟨occupants, hoccupants, rfl⟩ := Option.map_eq_some_iff.mp hfirst
      refine ⟨by simp [ih.1], ?_⟩
      rw [allKids_cons, List.forall_mem_append]
      exact ⟨roleOccupants?_forall hblock hgiven hoccupants, ih.2⟩
  · exact absurd h (by simp)

/-! ## Symbols -/

def Listed (symbols : List (String × Symbol)) (symbol : Symbol) : Prop :=
  ∃ key, symbols.find? (fun entry => entry.1 == key) = some (key, symbol)

def Shape.BoundIn (symbols : List (String × Symbol)) (shape : Shape) : Prop :=
  ∀ symbol, shape.symbol? = some symbol → Listed symbols symbol

theorem symbol?_of_shapeOf? (h : shapeOf? kind attributes = some shape)
    (hsymbol : shape.symbol? = some symbol) :
    attributes.symbol = some symbol := by
  cases kind <;>
    simp only [shapeOf?, Option.map_eq_some_iff, Option.bind_eq_bind, Option.bind_eq_some_iff,
      Option.some.injEq, reduceCtorEq] at h <;>
    grind [Shape.symbol?]

theorem symbol?_withType (shape : Shape) (type : Option Ty) :
    (shape.withType type).symbol? = shape.symbol? := by
  cases shape <;> rfl

theorem symbol?_of_castType (h : castType tree shape kids = .ok typed) :
    typed.symbol? = shape.symbol? := by
  unfold castType at h
  split at h
  all_goals try split at h
  all_goals try split at h
  all_goals cases h
  all_goals simp [symbol?_withType]

theorem symbol_settleLiteral {settled : GivenAttributes}
    (h : settleLiteral kind attributes = .ok settled) :
    settled.symbol = attributes.symbol := by
  unfold settleLiteral at h
  split at h
  · cases hvalue : literalValue _ attributes.type <;> rw [hvalue] at h <;> cases h
    rfl
  · cases h
    rfl

theorem origin_of_readSymbolParts {types : TypeTable} {reading : Nat} {key : String}
    {kind : BindingKind} {fields : List (String × Json)} {symbol : Symbol}
    (h : readSymbolParts types reading key kind fields = .ok symbol) :
    symbol.origin = .listed reading key := by
  unfold readSymbolParts at h
  simp only at h
  split at h
  · obtain ⟨_, _, h⟩ := Except.bind_eq_ok h
    obtain ⟨_, _, h⟩ := Except.bind_eq_ok h
    split at h
    · obtain ⟨_, _, h⟩ := Except.bind_eq_ok h
      obtain ⟨_, _, h⟩ := Except.bind_eq_ok h
      cases h
      rfl
    · cases h
  · cases h

theorem origin_of_readSymbol {info : Json} (h : readSymbol types reading key info = .ok symbol) :
    symbol.origin = .listed reading key := by
  unfold readSymbol at h
  split at h
  · split at h
    · split at h
      · cases h
      · split at h
        · cases h
        · cases h
        · exact origin_of_readSymbolParts h
    · split at h <;> cases h
  · cases h

theorem readSymbols_origin (h : readSymbols types reading value = .ok symbols) :
    ∀ entry ∈ symbols, entry.2.origin = .listed reading entry.1 := by
  intro entry hentry
  unfold readSymbols at h
  split at h
  · obtain ⟨field, _, hfield⟩ := mem_of_mapM h hentry
    split at hfield
    · rename_i symbol hsymbol
      cases hfield
      exact origin_of_readSymbol hsymbol
    · cases hfield
  · cases h

theorem emptyBlock_fresh : emptyBlock.Fresh (·.BoundIn symbols) := by
  refine .node ?_ rfl (by simp [allKids, Occupants.toList])
  intro symbol hsymbol
  cases hsymbol

namespace NodeReader

theorem findSymbol_listed (h : reader.findSymbol key = .ok symbol) :
    Listed reader.symbols symbol := by
  unfold findSymbol at h
  split at h
  · rename_i entry hentry
    cases h
    have hkey := List.find?_some hentry
    exact ⟨key, by rw [hentry, ← eq_of_beq hkey]⟩
  · cases h

theorem readAttribute_listed {before after : GivenAttributes} {wanted : AttributeName}
    (hbefore : ∀ symbol, before.symbol = some symbol → Listed reader.symbols symbol)
    (h : reader.readAttribute position fields before wanted = .ok after) :
    ∀ symbol, after.symbol = some symbol → Listed reader.symbols symbol := by
  intro symbol hsymbol
  cases wanted with
  | symbol =>
    simp only [readAttribute] at h
    split at h
    · cases h
      exact hbefore symbol hsymbol
    · split at h
      · rename_i found hfound
        cases h
        cases hsymbol
        exact findSymbol_listed hfound
      · cases h
  | _ =>
    simp only [readAttribute] at h
    split at h
    all_goals try split at h
    all_goals cases h
    all_goals exact hbefore symbol hsymbol

theorem readAttributes_listed {names : List AttributeName}
    (h : reader.readAttributes position fields names = .ok attributes) :
    ∀ symbol, attributes.symbol = some symbol → Listed reader.symbols symbol := by
  have hfold : ∀ (names : List AttributeName) (before : GivenAttributes),
      (∀ symbol, before.symbol = some symbol → Listed reader.symbols symbol) →
      names.foldlM (reader.readAttribute position fields) before = .ok attributes →
      ∀ symbol, attributes.symbol = some symbol → Listed reader.symbols symbol := by
    intro names
    induction names with
    | nil =>
      intro before hbefore h
      cases h
      exact hbefore
    | cons wanted rest ih =>
      intro before hbefore h
      rw [List.foldlM_cons] at h
      obtain ⟨after, hafter, h⟩ := Except.bind_eq_ok h
      exact ih after (readAttribute_listed hbefore hafter) h
  apply hfold names GivenAttributes.initial ?_ h
  intro symbol hsymbol
  cases hsymbol

end NodeReader

/-! ## Reading -/

theorem assembleNode_fresh (hattributes : ∀ symbol, attributes.symbol = some symbol →
      Listed symbols symbol) (hgiven : ∀ draft ∈ allKids given, draft.Fresh (·.BoundIn symbols))
    (h : assembleNode tree kind position given attributes = .ok draft) :
      draft.Fresh (·.BoundIn symbols) := by
  unfold assembleNode at h
  split at h
  · exact absurd h (by simp)
  · obtain ⟨settled, hsettled, h⟩ := Except.bind_eq_ok h
    split at h
    · rename_i shape kids hshape hkids
      obtain ⟨typed, htyped, h⟩ := Except.bind_eq_ok h
      cases h
      obtain ⟨hroles, hfresh⟩ := kidsOf?_forall emptyBlock_fresh hgiven hkids
      refine .node ?_ (by rw [hroles, kind_of_castType htyped, kind_of_shapeOf? hshape]) hfresh
      intro symbol hsymbol
      rw [symbol?_of_castType htyped] at hsymbol
      apply hattributes
      rw [← symbol_settleLiteral hsettled]
      exact symbol?_of_shapeOf? hshape hsymbol
    · exact absurd h (by simp)

namespace NodeReader

theorem readRole_forall {entry : Role × Occupants Draft}
    (hchild : ∀ value draft, readChild value = .ok draft → Q draft)
    (h : readRole readChild fields role = .ok entry) : ∀ draft ∈ entry.2.toList, Q draft := by
  unfold readRole at h
  split at h
  · cases h
    simp [Occupants.toList]
  · split at h
    · rename_i drafts hdrafts
      cases h
      intro draft hdraft
      obtain ⟨value, _, hvalue⟩ := mem_of_mapM hdrafts hdraft
      exact hchild value draft hvalue
    · exact absurd h (by simp)
  · cases h
    simp [Occupants.toList]
  · split at h
    · rename_i draft hdraft
      cases h
      simpa [Occupants.toList] using hchild _ draft hdraft
    · exact absurd h (by simp)

theorem readUnknown_fresh {word : Json}
    (hchild : ∀ value draft, readChild value = .ok draft → draft.Fresh (·.BoundIn symbols))
    (h : readUnknown readChild word position fields = .ok draft) :
      draft.Fresh (·.BoundIn symbols) := by
  unfold readUnknown at h
  split at h
  · exact absurd h (by simp)
  · split at h
    · exact absurd h (by simp)
    · rename_i drafts hdrafts
      cases h
      refine .node ?_ rfl ?_
      · intro symbol hsymbol
        cases hsymbol
      · intro draft hdraft
        have hdraft : draft ∈ drafts := by simpa [allKids, Occupants.toList] using hdraft
        obtain ⟨value, _, hvalue⟩ := mem_of_mapM hdrafts hdraft
        exact hchild value draft hvalue

theorem readWithin_fresh (hgraft : ∀ value, reader.graft value = .ok none) {depth : Nat}
    (h : reader.readWithin depth value = .ok draft) : draft.Fresh (·.BoundIn reader.symbols) := by
  induction depth generalizing value draft with
  | zero => exact absurd h (by simp [readWithin])
  | succ depth ih =>
    have hchild : ∀ value draft, reader.readWithin depth value = .ok draft →
        draft.Fresh (·.BoundIn reader.symbols) := fun _ _ => ih
    simp only [readWithin, hgraft] at h
    split at h
    · split at h
      · exact absurd h (by simp)
      · obtain ⟨position, _, h⟩ := Except.bind_eq_ok h
        split at h
        · split at h
          · obtain ⟨kids, hkids, h⟩ := Except.bind_eq_ok h
            obtain ⟨attributes, hattributes, h⟩ := Except.bind_eq_ok h
            refine assembleNode_fresh (readAttributes_listed hattributes) (fun draft hdraft => ?_) h
            obtain ⟨entry, hentry, hdraft⟩ := List.mem_flatMap.mp hdraft
            obtain ⟨role, _, hrole⟩ := mem_of_mapM hkids hentry
            exact readRole_forall hchild hrole draft hdraft
          · exact readUnknown_fresh hchild h
        · split at h
          · exact readUnknown_fresh hchild h
          · exact absurd h (by simp)
    · exact absurd h (by simp)

end NodeReader

theorem moduleRoot_fresh {path : Name} {root : Draft} (hdraft : draft.Fresh (·.BoundIn symbols))
    (h : moduleRoot path tree draft = .ok root) : root.Fresh (·.BoundIn symbols) := by
  unfold moduleRoot at h
  split at h
  · cases h
    cases hdraft with
    | node hshape hroles hkids =>
      refine .node ?_ hroles hkids
      intro symbol hsymbol
      cases hsymbol
  · exact absurd h (by simp)

/-! ## The whole document -/

theorem readDocument_ofDraft (h : readDocument value source = .ok document) :
    ∃ root path text, document.tree = Tree.ofDraft root path text ∧
      root.Fresh (·.BoundIn document.symbols) ∧ ∀ entry ∈ document.symbols,
      entry.2.origin = .listed 0 entry.1 := by
  unfold readDocument at h
  split at h
  · split at h
    · exact absurd h (by simp)
    · obtain ⟨types, _, h⟩ := Except.bind_eq_ok h
      obtain ⟨symbols, hsymbols, h⟩ := Except.bind_eq_ok h
      obtain ⟨draft, hdraft, h⟩ := Except.bind_eq_ok h
      obtain ⟨root, hroot, h⟩ := Except.bind_eq_ok h
      obtain ⟨errors, _, h⟩ := Except.bind_eq_ok h
      cases h
      exact ⟨root, _, _, rfl, moduleRoot_fresh (NodeReader.readWithin_fresh (fun _ => rfl) hdraft)
        hroot, readSymbols_origin hsymbols⟩
  · exact absurd h (by simp)

section

variable (h : readDocument value source = .ok document)
include h

/-- The tree of every document that can be read is sound. -/
theorem readDocument_sound : document.tree.Sound := by
  obtain ⟨root, path, text, htree, hfresh, _⟩ := readDocument_ofDraft h
  rw [htree]
  exact sound_ofDraft hfresh path text

/-- The nodes of a document are bound to what the document lists, and without comments. -/
theorem readDocument_plain : document.tree.Plain (·.BoundIn document.symbols) := by
  obtain ⟨root, path, text, htree, hfresh, _⟩ := readDocument_ofDraft h
  rw [htree]
  exact plain_ofDraft hfresh path text

/-- The symbols of a document's table remember their keys. -/
theorem readDocument_origin : ∀ entry ∈ document.symbols, entry.2.origin = .listed 0 entry.1 := by
  obtain ⟨_, _, _, _, _, horigin⟩ := readDocument_ofDraft h
  exact horigin

end

/-! ## Small documents -/

def Json.nodeOf (kind : String) (fields : List (String × Json)) : Json :=
  .record (("kind", .text kind) :: fields)

def Json.methodDocument (symbols : List (String × Json)) (statements : List Json) : Json :=
  .record [("symbols", .record symbols),
    ("module", nodeOf "Module" [("members", .list [nodeOf "TypeDef" [("name", .text "C"),
      ("members", .list [nodeOf "Method" [("name", .text "M"),
        ("body", nodeOf "Block" [("statements", .list statements)])]])]])])]

def Json.holds (value : Json) (check : Tree → Bool) : Bool :=
  match readDocument value .null with
  | .ok document => check document.tree
  | .error _ => false

def Session.runsTo {ε α : Type} (s : Session) (action : EStateM ε Session α)
    (check : α → Session → Bool) : Bool :=
  match action s with
  | .ok result after => check result after
  | .error _ _ => false

theorem Json.exists_of_holds {check : Tree → Bool} (h : value.holds check = true) :
    ∃ document, readDocument value .null = .ok document ∧ check document.tree = true := by
  unfold holds at h
  split at h
  · exact ⟨_, by assumption, h⟩
  · cases h

theorem Session.exists_of_runsTo {s : Session} {action : EStateM ε Session α}
    {check : α → Session → Bool} (h : s.runsTo action check = true) : ∃ result after,
    action s = .ok result after ∧ check result after = true := by
  unfold runsTo at h
  split at h
  · exact ⟨_, _, by assumption, h⟩
  · cases h

/-! ## Walks -/

/-- The slots of a document's tree follow the walk.  In every well linked tree the walk from a node
comes to an end, and is the recursive pre-order of its subtree: the node, then the pre-orders of its
children, each node once. -/
theorem walk_preorder :
    (∀ value source document, readDocument value source = .ok document →
      document.tree.walk document.tree.root = (List.range document.tree.size).map .slot) ∧
      ∀ t : Tree, t.WellLinked → ∀ id, t.Reachable id →
        t.walk id = id :: (t.children id).flatMap t.walk ∧ (t.walk id).Nodup ∧
          (∀ a, a ∈ t.walk id ↔ t.Beneath id a) ∧ ∀ steps, (t.walk id).length ≤ steps →
          t.walkStack steps [id] = t.walk id := by
  refine ⟨fun value source document h => ?_, fun t h id hid => ?_⟩
  · obtain ⟨root, path, text, htree, hfresh, _⟩ := readDocument_ofDraft h
    rw [htree]
    exact walk_ofDraft hfresh path text
  · have hintact := h.intact.beneath hid
    exact ⟨hintact.walk_eq, hintact.nodup_walk, fun _ => hintact.mem_walk_iff, fun _ =>
      hintact.walkStack_eq_walk⟩

/-- `if (true) return; break;`: the walk takes all of the first statement before the second one. -/
def Json.branchSample : Json :=
  methodDocument [] [
    nodeOf "If" [("cond", nodeOf "Literal" [("value", .bool true)]),
      ("then", nodeOf "Block" [("statements", .list [nodeOf "Return" []])])],
    nodeOf "Break" []]

theorem walk_preorder_branchSample :
    ∃ document, readDocument Json.branchSample .null = .ok document ∧ document.tree.WellLinked ∧
      document.tree.walk document.tree.root = (List.range 9).map .slot ∧
        document.tree.children (.slot 3) = [.slot 4, .slot 8] ∧
        document.tree.children (.slot 4) = [.slot 5, .slot 6] ∧ document.tree.walkStack 9
    [document.tree.root] = document.tree.walk document.tree.root := by
  obtain ⟨document, hread, h⟩ := Json.exists_of_holds (show Json.branchSample.holds (fun t =>
    t.size == 9 && t.children (.slot 3) == [.slot 4, .slot 8] && t.children (.slot 4) == [.slot 5,
      .slot 6]) = true by
      decide +kernel)
  simp only [Bool.and_eq_true, beq_iff_eq] at h
  obtain ⟨⟨hsize, hstatements⟩, hbranches⟩ := h
  have hsound := readDocument_sound hread
  have hlinked : document.tree.WellLinked := wellLinked_iff.mpr ⟨hsound.intact, hsound.top⟩
  have hwalk := walk_preorder.1 _ _ _ hread
  rw [hsize] at hwalk
  refine ⟨document, hread, hlinked, hwalk, hstatements, hbranches,
    (walk_preorder.2 _ hlinked _ Beneath.refl).2.2.2 9 ?_⟩
  rw [hwalk]
  decide

end UnitySharp
