import UnitySharp.Proofs.Document.Reading
import UnitySharp.Proofs.Type.Grammar

/-!
# The canonical spelling of a type

The spelling of a type that was read is again a word of the grammar and denotes a type of the same
spelling. It does not depend on the blanks and the aliases of the spelling that was read.
-/

namespace UnitySharp

open List

variable {c : Char} {cs front back : List Char} {name : String} {tokens : List SpellingToken}
  {table : TypeTable} {type : Ty}

/-! ## Blanks -/

theorem continuesTypeName_eq_false_of_isBlank (h : isBlank c = true) :
    continuesTypeName c = false := by
  have hlow : ∀ n < 33, continuesTypeName (Char.ofNat n) = false := by decide +kernel
  have hwide : ∀ n < 11, continuesTypeName (Char.ofNat (0x2000 + n)) = false := by decide +kernel
  have hsingle : ∀ n ∈ [0x85, 0xA0, 0x1680, 0x2028, 0x2029, 0x202F, 0x205F, 0x3000],
      continuesTypeName (Char.ofNat n) = false := by decide +kernel
  rw [← Char.ofNat_toNat c]
  simp only [isBlank, Bool.or_eq_true, Bool.and_eq_true, decide_eq_true_eq, beq_iff_eq] at h
  generalize c.toNat = n at h
  rcases h with (((((((((⟨_, hn⟩ | ⟨_, hn⟩) | rfl) | rfl) | rfl) | ⟨hn,
    hn'⟩) | rfl) | rfl) | rfl) | rfl) | rfl
  case inl.inl.inl.inl.inl.inr =>
    obtain ⟨k, rfl⟩ := Nat.exists_eq_add_of_le hn
    exact hwide k (by omega)
  all_goals first
    | exact hlow n (by omega)
    | exact hsingle _ (by simp)

def Inked (cs : List Char) : Prop :=
  (∀ c ∈ cs.head?, isBlank c = false) ∧ EndsInInk cs

theorem dropWhile_eq_self_of_head? (h : ∀ c ∈ cs.head?, isBlank c = false) :
    cs.dropWhile isBlank = cs := by
  cases cs with
  | nil => rfl
  | cons c cs => simp [h c rfl]

theorem Inked.trimmed_eq (h : Inked cs) : trimmed cs = cs := by
  rw [trimmed, trimmedLeft, dropWhile_eq_self_of_head? h.1, trimmedRight,
    dropWhile_eq_self_of_head?, reverse_reverse]
  rw [head?_reverse]
  exact h.2

theorem Inked.append (hfront : Inked front) (hne : front ≠ []) (hback : EndsInInk back)
    (hback' : back ≠ []) :
    Inked (front ++ back) := by
  constructor
  · intro c hc
    refine hfront.1 c ?_
    cases front with
    | nil => exact absurd rfl hne
    | cons => simpa using hc
  · intro c hc
    refine hback c ?_
    rw [getLast?_append] at hc
    cases hlast : back.getLast? with
    | none => exact absurd (getLast?_eq_none_iff.mp hlast) hback'
    | some d => simpa [hlast] using hc

theorem endsInInk_concat {first last : Char} (h : isBlank last = false) :
    EndsInInk (first :: (cs ++ [last])) := by
  intro c hc
  rw [← cons_append, getLast?_concat] at hc
  cases hc
  exact h

/-! ## Names -/

/-- A text that a spelling can hold as one name. -/
def LegalName (name : String) : Prop :=
  ∃ c word, name.toList = c :: word ∧ startsTypeName c = true ∧ ∀ d ∈ word,
    continuesTypeName d = true

theorem LegalName.inked (h : LegalName name) : Inked name.toList := by
  obtain ⟨c, word, hname, hstart, hword⟩ := h
  have hfirst := isBlank_eq_false_of_startsTypeName hstart
  rw [hname]
  refine ⟨by simpa using hfirst, fun d hd => ?_⟩
  rcases mem_cons.mp (mem_of_getLast? hd) with rfl | hmem
  · exact hfirst
  · cases hblank : isBlank d with
    | false => rfl
    | true => exact absurd (hword d hmem) (by simp [continuesTypeName_eq_false_of_isBlank hblank])

theorem LegalName.ne_nil (h : LegalName name) : name.toList ≠ [] := by
  obtain ⟨c, word, hname, _⟩ := h
  simp [hname]

theorem Lexes.legalName (h : Lexes cs tokens) (hname : .name name ∈ tokens) : LegalName name := by
  induction h with
  | done => simp at hname
  | blank _ _ ih => exact ih hname
  | @mark c token cs tokens hmark _ ih =>
    rcases mem_cons.mp hname with rfl | hname
    · unfold spellingMark? at hmark
      split at hmark <;> cases hmark
    · exact ih hname
  | @name c word cs tokens hstart hword _ _ ih =>
    rcases mem_cons.mp hname with heq | hname
    · cases heq
      exact ⟨c, word, by simp, hstart, hword⟩
    · exact ih hname

/-- What may stand right after a name. -/
def StopsName (cs : List Char) : Prop :=
  ∀ d ∈ cs.head?, continuesTypeName d = false

theorem stopsName_cons (h : continuesTypeName c = false) : StopsName (c :: cs) := by
  intro d hd
  cases hd
  exact h

theorem Lexes.of_legalName (h : LegalName name) : Lexes name.toList [.name name] := by
  obtain ⟨c, word, hname, hstart, hword⟩ := h
  have hlexes : Lexes (c :: (word ++ [])) _ := .name hstart hword (by simp) .done
  rwa [append_nil, ← hname, String.ofList_toList] at hlexes

theorem Lexes.append {first rest : List SpellingToken} (h : Lexes front first)
    (hback : Lexes back rest) (hstop : StopsName back) : Lexes (front ++ back) (first ++ rest) := by
  induction h with
  | done => exact hback
  | blank hblank _ ih => exact .blank hblank ih
  | mark hmark _ ih => exact .mark hmark ih
  | @name c word cs tokens hstart hword hstopped _ ih =>
    rw [cons_append, append_assoc]
    refine .name hstart hword ?_ ih
    cases cs with
    | nil => exact hstop
    | cons => simpa using hstopped

theorem Lexes.commas (h : Lexes cs tokens) (n : Nat) :
    Lexes (List.replicate n ',' ++ cs) (List.replicate n .comma ++ tokens) := by
  induction n with
  | zero => exact h
  | succ n ih =>
    rw [replicate_succ, replicate_succ]
    exact .mark rfl ih

/-! ## Tables -/

namespace TypeTable

variable {kind : TypeKind} {types : List Ty} {element : Ty}

def Plain (table : TypeTable) : Prop :=
  ∀ entry ∈ table.declared, ∃ kind members, entry.2 = .simple entry.1 kind members ∧
    kind ≠ .arrayType

/-- A name that denotes a type of that name. -/
def Settles (table : TypeTable) (name : String) : Prop :=
  LegalName name ∧ ∃ kind members, table.find? name = some (.simple name kind members) ∧
    kind ≠ .arrayType

theorem mem_of_listed {entries : List (String × Ty)} (h : entry? name entries = some type) :
    (name, type) ∈ entries := by
  induction entries with
  | nil => simp [ entry?] at h
  | cons entry rest ih =>
    simp only [ entry?] at h
    split at h
    · rename_i heq
      cases h
      exact mem_cons.mpr (.inl (by rw [← heq]))
    · exact mem_cons_of_mem _ (ih h)

theorem wellKnown_settled :
    ∀ entry ∈ Ty.wellKnownNames, LegalName entry.2.name ∧
      ∃ kind, entry.2 = .simple entry.2.name kind [] ∧ kind ≠ .arrayType ∧
        entry? entry.2.name Ty.wellKnownNames = some entry.2 := by
  have hlegal : ∀ entry ∈ Ty.wellKnownNames, (entry.2.name.toList.head?.any startsTypeName &&
      entry.2.name.toList.tail.all continuesTypeName) = true := by
    decide +kernel
  have hfound : ∀ entry ∈ Ty.wellKnownNames, ∃ kind, entry.2 = .simple entry.2.name kind [] ∧
      kind ≠ .arrayType ∧ entry? entry.2.name Ty.wellKnownNames = some entry.2 := by
    simp only [Ty.wellKnownNames, Ty.wellKnown, Ty.aliases, map_cons, map_nil, cons_append,
      nil_append, forall_mem_cons]
    and_intros
    all_goals first
      | exact ⟨_, rfl, by decide, rfl⟩
      | simp
  intro entry hentry
  refine ⟨?_, hfound entry hentry⟩
  have hname := hlegal entry hentry
  cases heq : entry.2.name.toList with
  | nil =>
    rw [heq] at hname
    cases hname
  | cons c word =>
    rw [heq] at hname
    simp only [head?_cons, Option.any_some, tail_cons, Bool.and_eq_true, all_eq_true] at hname
    exact ⟨c, word, heq, hname⟩

/-- A name that is found stands for a type whose own name denotes a type of that name. -/
theorem Plain.settles (hplain : table.Plain) (hlegal : LegalName name)
    (h : table.find? name = some type) :
    table.Settles type.name ∧ ∃ kind members, type = .simple type.name kind members ∧
      kind ≠ .arrayType := by
  have hdeclared : ∀ {declared : String} {found : Ty}, entry? declared table.declared = some found →
      ∃ kind members, found = .simple declared kind members ∧ kind ≠ .arrayType :=
    fun hentry => hplain _ (mem_of_listed hentry)
  unfold find? at h
  split at h
  · rename_i found hfound
    cases h
    obtain ⟨kind, members, rfl, hkind⟩ := hdeclared hfound
    refine ⟨⟨hlegal, kind, members, ?_, hkind⟩, kind, members, rfl, hkind⟩
    simp only [find?, Ty.name, hfound]
  · obtain ⟨hown, kind, htype, hkind, hagain⟩ := wellKnown_settled _ (mem_of_listed h)
    refine ⟨⟨hown, ?_⟩, kind, [], htype, hkind⟩
    -- the canonical name may be declared by the document: then it denotes that type
    cases hfound : entry? type.name table.declared with
    | some found =>
      obtain ⟨kind, members, rfl, hkind⟩ := hdeclared hfound
      exact ⟨kind, members, by simp only [find?, hfound], hkind⟩
    | none => exact ⟨kind, [], by rw [← htype]; simp only [find?, hfound]; exact hagain, hkind⟩

theorem readTypeEntry_eq_ok {info : Json} {entry : String × Ty}
    (h : readTypeEntry name info = .ok entry) :
    ∃ kind members, entry = (name, .simple name kind members) := by
  revert h
  fun_cases readTypeEntry name info
  all_goals
    intro h
    cases h
  exact ⟨_, _, rfl⟩

theorem plain_of_readTypeTable {value : Json} (h : readTypeTable value = .ok table)
    (hkinds : ∀ entry ∈ table.declared, entry.2.kind ≠ .arrayType) : table.Plain := by
  unfold readTypeTable at h
  split at h
  · split at h
    · cases h
    · rename_i declared hdeclared
      cases h
      intro entry hentry
      obtain ⟨field, _, hfield⟩ := mem_of_mapM hdeclared hentry
      obtain ⟨kind, members, rfl⟩ := readTypeEntry_eq_ok hfield
      exact ⟨kind, members, rfl, hkinds _ hentry⟩
  · cases h

/-! ## Spellings -/

/-- The spelling of the type can be read again, as a type of the same spelling. -/
structure Canonical (table : TypeTable) (type : Ty) : Prop where
  inked : Inked type.spelling.toList
  ne_nil : type.spelling.toList ≠ []
  reads : ∃ tokens again, Lexes type.spelling.toList tokens ∧ table.Denotes tokens again ∧
    again.spelling = type.spelling

/-- The same for spellings with commas between them. -/
def CanonicalAll (table : TypeTable) (types : List Ty) : Prop :=
  ∃ tokens again, Lexes (Ty.spellings types).toList tokens ∧ table.DenotesAll tokens again ∧
    Ty.spellings again = Ty.spellings types

theorem Settles.canonical {members : List (Name × Json)} (h : table.Settles name)
    (hkind : kind ≠ .arrayType) :
    table.Canonical (.simple name kind members) := by
  have hspelling : ∀ {kind members}, kind ≠ .arrayType →
    (Ty.simple name kind members).spelling = name :=
    fun hkind => by rw [Ty.spelling, if_neg hkind]
  obtain ⟨hlegal, kind', members', hfind, hkind'⟩ := h
  refine ⟨?_, ?_, [.name name], .simple name kind' members', ?_, .name hfind, ?_⟩
  · rw [hspelling hkind]
    exact hlegal.inked
  · rw [hspelling hkind]
    exact hlegal.ne_nil
  · rw [hspelling hkind]
    exact .of_legalName hlegal
  · rw [hspelling hkind, hspelling hkind']

theorem spelling_generic (hkind : kind ≠ .arrayType) :
    (Ty.generic name kind types).spelling.toList = name.toList ++ '<' ::
      ((Ty.spellings types).toList ++ ['>']) := by
  rw [Ty.spelling, if_neg hkind]
  simp

theorem Settles.canonical_generic (h : table.Settles name) (hkind : kind ≠ .arrayType)
    (htypes : table.CanonicalAll types) : table.Canonical (.generic name kind types) := by
  obtain ⟨hlegal, kind', members', hfind, hkind'⟩ := h
  obtain ⟨tokens, again, hlexes, hdenotes, hagain⟩ := htypes
  refine ⟨?_, ?_, .name name :: .less :: (tokens ++ [.greater]), .generic name kind' again, ?_,
    .generic hfind hdenotes, ?_⟩
  · rw [spelling_generic hkind]
    exact hlegal.inked.append hlegal.ne_nil (endsInInk_concat rfl) (by simp)
  · simp [spelling_generic hkind]
  · rw [spelling_generic hkind]
    exact (Lexes.of_legalName hlegal).append
      (.mark rfl (hlexes.append (.mark rfl .done) (stopsName_cons rfl))) (stopsName_cons rfl)
  · rw [Ty.spelling, Ty.spelling, if_neg hkind, if_neg hkind', hagain]

theorem spelling_array (commas : Nat) :
    (Ty.array element (commas + 1)).spelling.toList =
      element.spelling.toList ++ '[' :: (List.replicate commas ',' ++ [']']) := by
  rw [Ty.spelling, Ty.brackets]
  simp

theorem Canonical.array (h : table.Canonical element) (commas : Nat) :
    table.Canonical (.array element (commas + 1)) := by
  obtain ⟨hinked, hne, tokens, again, hlexes, hdenotes, hagain⟩ := h
  refine ⟨?_, ?_, _, _, ?_, .array commas hdenotes, ?_⟩
  · rw [spelling_array]
    exact hinked.append hne (endsInInk_concat rfl) (by simp)
  · simp [spelling_array]
  · rw [spelling_array]
    exact hlexes.append (.mark rfl (.commas (.mark rfl .done) commas)) (stopsName_cons rfl)
  · rw [Ty.spelling, Ty.spelling, hagain]

theorem Canonical.one (h : table.Canonical type) : table.CanonicalAll [type] := by
  obtain ⟨_, _, tokens, again, hlexes, hdenotes, hagain⟩ := h
  exact ⟨tokens, [again], by rwa [Ty.spellings],
    .one hdenotes, by rw [Ty.spellings, Ty.spellings, hagain]⟩

theorem CanonicalAll.cons (h : table.Canonical type) (hne : types ≠ [])
    (htypes : table.CanonicalAll types) :
    table.CanonicalAll (type :: types) := by
  have hspellings : ∀ {first : Ty} {types : List Ty}, types ≠ [] →
      Ty.spellings (first :: types) = first.spelling ++ ", " ++ Ty.spellings types := by
    intro first types hne
    cases types with
    | nil => exact absurd rfl hne
    | cons => rw [Ty.spellings]; simp
  obtain ⟨_, _, tokens, again, hlexes, hdenotes, hagain⟩ := h
  obtain ⟨others, others', hothers, hall, hsame⟩ := htypes
  refine ⟨tokens ++ .comma :: others, again :: others', ?_, .more hdenotes hall, ?_⟩
  · rw [hspellings hne, String.toList_append, String.toList_append, append_assoc]
    exact hlexes.append (.mark rfl (.blank rfl hothers)) (stopsName_cons rfl)
  · rw [hspellings hne, hspellings (by cases hall <;> simp), hagain, hsame]

mutual

theorem Denotes.canonical (hplain : table.Plain) {tokens : List SpellingToken} {type : Ty}
    (h : table.Denotes tokens type) (hlegal : ∀ name, .name name ∈ tokens → LegalName name) :
      table.Canonical type := by
  cases h with
  | @name name _ hfind =>
    obtain ⟨hsettles, kind, members, htype, hkind⟩ := hplain.settles (hlegal name (by simp)) hfind
    rw [htype]
    exact hsettles.canonical hkind
  | @generic name base arguments types hfind harguments =>
    obtain ⟨hsettles, kind, members, htype, hkind⟩ := hplain.settles (hlegal name (by simp)) hfind
    have hbase : base.kind ≠ .arrayType := by rw [htype]; exact hkind
    refine hsettles.canonical_generic hbase (DenotesAll.canonical hplain harguments
      fun name hname => ?_)
    exact hlegal name (by simp [hname])
  | @array tokens element commas helement =>
    exact (Denotes.canonical hplain helement fun name hname => hlegal name (by simp [hname])).array
      commas

theorem DenotesAll.canonical (hplain : table.Plain) {tokens : List SpellingToken} {types : List Ty}
    (h : table.DenotesAll tokens types) (hlegal : ∀ name, .name name ∈ tokens → LegalName name) :
    table.CanonicalAll types := by
  cases h with
  | one htype => exact (Denotes.canonical hplain htype hlegal).one
  | @more first rest type types htype htypes =>
    refine .cons (Denotes.canonical hplain htype fun name hname => hlegal name (by simp [hname])) ?_
      (DenotesAll.canonical hplain htypes fun name hname => hlegal name (by simp [hname]))
    cases htypes <;> simp

end

end TypeTable

theorem readSpelling_eq_ok_iff {spelling : String} :
    readSpelling table spelling = .ok type ↔
      ∃ tokens, Lexes (trimmed spelling.toList) tokens ∧ table.Denotes tokens type := by
  rw [← TypeTable.read_eq_ok_iff, readSpelling]
  cases table.read spelling <;> simp

/-- Spellings are read by the grammar: a spelling is accepted, as the type that it denotes, exactly
when it falls into tokens that form a word whose names are all declared or well known, and any other
is a fault of the document. If no declared type is an array, then the spelling of a type that was
read is accepted again, and denotes an equal type. -/
theorem readSpelling_canonical {declared : Json} {table : TypeTable}
    (htable : readTypeTable declared = .ok table) (spelling : String) :
    (∀ name, (table.find? name).isSome ↔
      name ∈ table.declared.map Prod.fst ∨ name ∈ Ty.wellKnownNames.map Prod.fst) ∧
    (∀ type, readSpelling table spelling = .ok type ↔
      ∃ tokens, Lexes (trimmed spelling.toList) tokens ∧ table.Denotes tokens type) ∧
    ((¬ ∃ tokens type, Lexes (trimmed spelling.toList) tokens ∧ table.Denotes tokens type) →
      ∃ why, readSpelling table spelling = .error (.spelling why (trimText spelling))) ∧
    ((∀ entry ∈ table.declared, entry.2.kind ≠ .arrayType) → ∀ type,
      readSpelling table spelling = .ok type → ∃ again,
      readSpelling table type.spelling = .ok again ∧ again.spelling = type.spelling) := by
  refine ⟨fun name => TypeTable.find?_isSome_iff, fun type => readSpelling_eq_ok_iff, ?_, ?_⟩
  · intro hno
    cases hread : table.read spelling with
    | ok type =>
      obtain ⟨tokens, hlexes, hdenotes⟩ := TypeTable.read_eq_ok_iff.mp hread
      exact absurd ⟨tokens, type, hlexes, hdenotes⟩ hno
    | error why => exact ⟨why, by simp only [readSpelling, hread]⟩
  · intro hkinds type hread
    obtain ⟨tokens, hlexes, hdenotes⟩ := readSpelling_eq_ok_iff.mp hread
    have hplain := TypeTable.plain_of_readTypeTable htable hkinds
    obtain ⟨hinked, _, spelled, again, hspelled, hagain, hsame⟩ :=
      hdenotes.canonical hplain fun name hname => hlexes.legalName hname
    refine ⟨again, readSpelling_eq_ok_iff.mpr ⟨spelled, ?_, hagain⟩, hsame⟩
    rwa [hinked.trimmed_eq]

def Json.typesSample : Json :=
  .record [("Dictionary", .record []), ("Mode", .record [("kind", .text "enum")]),
    ("string", .record [("kind", .text "struct")])]

def TypeTable.sample : TypeTable :=
  ⟨[("Dictionary", .simple "Dictionary" .classType []), ("Mode", .simple "Mode" .enumType []),
    ("string", .simple "string" .structType [])]⟩

theorem readSpelling_typesSample :
    readTypeTable Json.typesSample = .ok .sample ∧
      (∀ entry ∈ TypeTable.sample.declared, entry.2.kind ≠ .arrayType) ∧
      ∃ type again, readSpelling .sample " Dictionary< System.String ,Mode[ , ][]> []" = .ok type ∧
        type.spelling = "Dictionary<string, Mode[,][]>[]" ∧
        readSpelling .sample type.spelling = .ok again ∧ again.spelling = type.spelling := by
  have hread : (readSpelling .sample " Dictionary< System.String ,Mode[ , ][]> []").toOption.map
      Ty.spelling = some "Dictionary<string, Mode[,][]>[]" := by
    decide +kernel
  cases htype : readSpelling .sample " Dictionary< System.String ,Mode[ , ][]> []" with
  | error _ =>
    rw [htype] at hread
    cases hread
  | ok type =>
    rw [htype] at hread
    have htable : readTypeTable Json.typesSample = .ok .sample := rfl
    obtain ⟨again, hagain, hsame⟩ := (readSpelling_canonical htable _).2.2.2 (by decide) type htype
    exact ⟨htable, by decide, type, again, rfl, Option.some.inj hread, hagain, hsame⟩

end UnitySharp
