import UnitySharp.Proofs.Pass.Casting

/-!
# Values that agree with declared types

Two passes put in casts, first for numbers and values of type `object`, then for enumerations.  Here
they are taken as functions on terms, one after the other.  The second does not undo what the first
has settled, because it changes no type of anything that was there, nor does it cast what the first
has cast (`recast_casted`).
-/

namespace UnitySharp

open List

variable {α : Type} {role : Role} {type : Ty} {term : Term}

/-! ## Kids by role -/

theorem Occupants.Rel.of_map {β : Type} {R : α → β → Prop} {f : α → β} (occupants : Occupants α)
    (h : ∀ a, R a (f a)) :
    Occupants.Rel R occupants (occupants.map f) := by
  cases occupants with
  | empty => exact .empty
  | one a => exact .one (h a)
  | many list => exact .many (forall₂_map_right_iff.mpr (forall₂_same.mpr fun a _ => h a))

theorem kidsAt_exchanged {F : Occupants α → Occupants α} (hempty : F .empty = .empty)
    (kids : Kids α) (other : Role) :
    kidsAt other (setKids role (F (kidsAt role kids)) kids) =
      if other = role then F (kidsAt other kids) else kidsAt other kids := by
  split
  · rename_i heq
    subst heq
    cases hany : kids.any (fun entry => entry.1 == other) with
    | true => exact kidsAt_setKids_self hany _
    | false =>
      rw [setKids_of_absent hany]
      have hnone : kidsAt other kids = .empty := by
        clear hempty
        induction kids with
        | nil => rfl
        | cons entry rest ih =>
          rw [any_cons, Bool.or_eq_false_iff, beq_eq_false_iff_ne] at hany
          rw [kidsAt, if_neg hany.1, ih hany.2]
      rw [hnone, hempty]
  · rename_i hne
    exact kidsAt_setKids_ne hne _ _

theorem KidsRel.exchanged_twice {α : Type} {R : α → α → Prop} {role : Role}
    {F G : Occupants α → Occupants α} {d e : α → α} (kids : Kids α) (hrest : ∀ a, R a (e (d a)))
    (hrole : ∀ occupants, Occupants.Rel R occupants (G ((F (occupants.map d)).map e))) :
    let middle := mapKids e (setKids role (F (kidsAt role (mapKids d kids))) (mapKids d kids))
    KidsRel R kids (setKids role (G (kidsAt role middle)) middle) := by
  have hmap : ∀ occupants : Occupants α, Occupants.Rel R occupants ((occupants.map d).map e) :=
    fun occupants => by
    rw [Occupants.map_map]
    exact Occupants.Rel.of_map occupants hrest
  induction kids with
  | nil => exact .nil
  | cons entry rest ih =>
    simp only [mapKids, map_cons, kidsAt, setKids]
    split
    · rename_i heq
      rw [map_cons, kidsAt, if_pos heq, setKids, if_pos heq]
      refine .cons ⟨rfl, hrole entry.2⟩ ?_
      rw [List.map_map, forall₂_map_right_iff]
      exact forall₂_same.mpr fun entry _ => ⟨rfl, hmap entry.2⟩
    · rename_i hne
      rw [map_cons, kidsAt, if_neg hne, setKids, if_neg hne]
      exact .cons ⟨rfl, hmap entry.2⟩ ih

namespace Ty

theorem needsCast_self (type : Ty) : needsCast (some type) (some type) = false := by
  have hself : (type == type) = true := beq_self_eq_true type.spelling
  simp [needsCast, hself]

theorem needsCast_none (target : Option Ty) : needsCast target none = false := by
  cases target <;> rfl

theorem enumMismatch_self (type : Option Ty) : enumMismatch type type = false := by
  cases type <;> simp [enumMismatch]

theorem enumMismatch_none (target : Option Ty) : enumMismatch target none = false := by
  cases target <;> rfl

/-- A value of one type can stand where another is declared: neither pass has anything to cast. -/
def Agree (target source : Option Ty) : Prop :=
  needsCast target source = false ∧ enumMismatch target source = false

end Ty

theorem Term.occurs_cast_iff {operand : Term} :
    (Term.cast type operand).Occurs term ↔ term = .cast type operand ∨
      term = .node none ⟨.typeRef (some type), none, none, []⟩ [] ∨ operand.Occurs term := by
  rw [Term.cast, Term.occurs_node_iff]
  simp [allKids_cons, allKids_nil, Occupants.toList, Term.occurs_node_iff]

theorem Name.eq_of_is {name : Name} {word : String} (h : name.is word = true) :
    name = .text word := by
  cases name with
  | text s => exact congrArg Name.text (by simpa [Name.is] using h)
  | other value => exact absurd h (by simp [Name.is])

namespace Casts

variable {conversion : Conversion} {settle : Name → Face → Kids Term → Face × Kids Term}
  {origin : Option NodeId} {face : Face} {kids : Kids Term} {other : Role} {returns : Option Ty}
  {f : Term → Term} {op : Name}

theorem kidType_changeRole_ne (hne : other ≠ role) :
    kidType other (changeRole role f kids) = kidType other kids := by
  rw [kidType, changeRole, kidsAt_setKids_ne hne, kidType]

theorem kidType_changeRole_self :
    kidType role (changeRole role f kids) = (kidsAt role kids).one?.bind fun term =>
      (f term).type := by
  rw [kidType, changeRole, kidsAt_exchanged (by rfl), if_pos rfl]
  cases kidsAt role kids <;> rfl

theorem kidType_mapKids :
    kidType role (mapKids f kids) = (kidsAt role kids).one?.bind fun term => (f term).type := by
  rw [kidType, kidsAt_mapKids]
  cases kidsAt role kids <;> rfl

/-! ## What a pass leaves as it is -/

/-- At operators, a pass at most gives the operator a type and casts one of its operands, and it
leaves assignments alone. -/
structure OnlyCasts (settle : Name → Face → Kids Term → Face × Kids Term) : Prop where
  assignment : ∀ face kids, settle "=" face kids = (face, kids)
  face : ∀ op face kids, (settle op face kids).1 = face ∨ ∃ type,
    (settle op face kids).1 = face.withType type
  kids : ∀ op face kids,
    (settle op face kids).2 = kids ∨ ∃ role type,
      (settle op face kids).2 = changeRole role (.cast type) kids

theorem OnlyCasts.shape (h : OnlyCasts settle) {type : Option Ty}
    (hshape : face.shape = .binary op type) (kids : Kids Term) : ∃ type',
    (settle op face kids).1.shape = .binary op type' := by
  rcases h.face op face kids with hsame | ⟨type', htyped⟩
  · exact ⟨type, by rw [hsame, hshape]⟩
  · refine ⟨type', ?_⟩
    rw [htyped, Face.withType, hshape]
    rfl

theorem onlyCasts_settledArithmetic : OnlyCasts settledArithmetic where
  assignment := fun _ _ => rfl
  face := by
    intro op face kids
    unfold settledArithmetic
    split
    · split
      · exact Or.inr ⟨_, rfl⟩
      · exact Or.inr ⟨_, rfl⟩
      · exact Or.inl rfl
    · exact Or.inl rfl
  kids := by
    intro op face kids
    unfold settledArithmetic
    split
    · split
      · exact Or.inr ⟨_, _, rfl⟩
      · exact Or.inr ⟨_, _, rfl⟩
      · exact Or.inl rfl
    · exact Or.inl rfl

theorem onlyCasts_settledEquality : OnlyCasts settledEquality where
  assignment := fun _ _ => rfl
  face := fun op face kids => Or.inl (settledEquality_face op face kids)
  kids := by
    intro op face kids
    unfold settledEquality
    split
    · split
      · split
        · exact Or.inr ⟨_, _, rfl⟩
        · exact Or.inr ⟨_, _, rfl⟩
      · exact Or.inl rfl
    · exact Or.inl rfl

theorem convertedNode_binary {type : Option Ty} (h : face.shape = .binary op type) :
    convertedNode conversion settle returns face kids = settle op face
      (if op.is "=" then changeRole .right (converted conversion (kidType .left kids))
        kids else kids) := by
  rw [convertedNode, h]

theorem convertedNode_initializer (h : face.shape.kind = .declaration ∨ face.shape.kind = .field) :
    convertedNode conversion settle returns face kids =
      (face, changeRole .initializer (converted conversion (kidType .typeRef kids)) kids) := by
  unfold convertedNode
  cases hshape : face.shape <;> simp_all [Shape.kind]

theorem convertedNode_call (h : face.shape.kind = .invocation) :
    convertedNode conversion settle returns face kids = (face, convertedCall conversion kids) := by
  unfold convertedNode
  cases hshape : face.shape <;> simp_all [Shape.kind]

theorem convertedNode_return (h : face.shape.kind = .returnStatement) :
    convertedNode conversion settle returns face kids =
      (face, changeRole .expression (converted conversion returns) kids) := by
  unfold convertedNode
  cases hshape : face.shape <;> simp_all [Shape.kind]

theorem convertedNode_of_kind
    (h : face.shape.kind ∉ [.binary, .declaration, .field, .invocation, .returnStatement]) :
    convertedNode conversion settle returns face kids = (face, kids) := by
  unfold convertedNode
  cases hshape : face.shape <;> simp_all [Shape.kind]

theorem convertedNode_kind (hsettle : OnlyCasts settle) :
    (convertedNode conversion settle returns face kids).1.shape.kind = face.shape.kind := by
  unfold convertedNode
  split
  · rcases hsettle.face _ face _ with hsame | ⟨type, htyped⟩
    · rw [hsame]
    · rw [htyped, kind_face_withType]
  all_goals rfl

theorem kind_casted (hsettle : OnlyCasts settle) (term : Term) (returns : Option Ty) :
    (casted conversion settle term returns).face.shape.kind = term.face.shape.kind := by
  cases term
  rw [casted_node, Term.face_node, convertedNode_kind hsettle, Term.face_node]

def CastOf (term after : Term) : Prop :=
  after = term ∨ ∃ type, after = .cast type term

theorem castOf_converted (target : Option Ty) (term : Term) :
    CastOf term (converted conversion target term) := by
  unfold converted
  split
  · split
    · exact Or.inr ⟨_, rfl⟩
    · exact Or.inl rfl
  · exact Or.inl rfl

theorem castOf_convertedArguments (parameters : List ParameterInfo) (arguments : List Term) :
    List.Forall₂ CastOf arguments (convertedArguments conversion parameters arguments) := by
  induction arguments generalizing parameters with
  | nil => cases parameters <;> exact .nil
  | cons argument arguments ih =>
    cases parameters with
    | nil => exact forall₂_same.mpr fun _ _ => Or.inl rfl
    | cons parameter parameters =>
      refine .cons ?_ (ih parameters)
      rw [convertedArgument]
      split
      · exact Or.inl rfl
      · exact castOf_converted _ _

theorem castOf_convertedOccupants (parameters : List ParameterInfo) (occupants : Occupants Term) :
    Occupants.Rel CastOf occupants (convertedOccupants conversion parameters occupants) := by
  cases occupants with
  | empty => exact .empty
  | one argument =>
    cases parameters with
    | nil => exact .one (Or.inl rfl)
    | cons parameter parameters =>
      have hone : List.Forall₂ CastOf [argument]
          (convertedArguments conversion (parameter :: parameters) [argument]) :=
            castOf_convertedArguments _ _
      exact .one (forall₂_cons.mp hone).1
  | many arguments => exact .many (castOf_convertedArguments parameters arguments)

theorem setKids_rel {R : Term → Term → Prop} {first : Occupants Term} (hrefl : ∀ term, R term term)
    (hrole : Occupants.Rel R (kidsAt role kids) first) :
      KidsRel R kids (setKids role first kids) := by
  induction kids with
  | nil => exact .nil
  | cons entry rest ih =>
    rw [setKids]
    rw [kidsAt] at hrole
    split
    · rename_i heq
      rw [if_pos heq] at hrole
      exact .cons ⟨rfl, hrole⟩ (KidsRel.refl rest hrefl)
    · rename_i hne
      rw [if_neg hne] at hrole
      exact .cons ⟨rfl, Occupants.Rel.refl entry.2 hrefl⟩ (ih hrole)

theorem changeRole_rel (h : ∀ term, CastOf term (f term)) :
    KidsRel CastOf kids (changeRole role f kids) :=
  setKids_rel (fun _ => Or.inl rfl) (Occupants.Rel.of_map _ h)

theorem castOf_settled (hsettle : OnlyCasts settle) (op : Name) (face : Face) (kids : Kids Term) :
    KidsRel CastOf kids (settle op face kids).2 := by
  rcases hsettle.kids op face kids with hkids | ⟨role, type, hkids⟩
  · rw [hkids]
    exact KidsRel.refl kids fun _ => Or.inl rfl
  · rw [hkids]
    exact changeRole_rel fun term => Or.inr ⟨type, rfl⟩

theorem castOf_convertedCall (conversion : Conversion) (kids : Kids Term) :
    KidsRel CastOf kids (convertedCall conversion kids) := by
  cases hcallee : callee? conversion kids with
  | none =>
    rw [convertedCall_of_none hcallee]
    exact KidsRel.refl kids fun _ => Or.inl rfl
  | some callee =>
    rw [convertedCall_of_some hcallee]
    exact setKids_rel (fun _ => Or.inl rfl) (castOf_convertedOccupants _ _)

theorem castOf_convertedNode (hsettle : OnlyCasts settle) :
    KidsRel CastOf kids (convertedNode conversion settle returns face kids).2 := by
  unfold convertedNode
  split
  · rename_i op type hshape
    by_cases hassign : op.is "=" = true
    · rw [if_pos hassign, Name.eq_of_is hassign, hsettle.assignment]
      exact changeRole_rel (castOf_converted _)
    · rw [if_neg hassign]
      exact castOf_settled hsettle op face kids
  · exact changeRole_rel (castOf_converted _)
  · exact changeRole_rel (castOf_converted _)
  · exact castOf_convertedCall conversion kids
  · exact changeRole_rel (castOf_converted _)
  · exact KidsRel.refl kids fun _ => Or.inl rfl

theorem mem_convertedNode (hsettle : OnlyCasts settle) {kid : Term}
    (h : kid ∈ allKids (convertedNode conversion settle returns face kids).2) :
      ∃ old ∈ allKids kids, CastOf old kid :=
  (castOf_convertedNode hsettle).exists_left h

theorem convertedNode_method (h : face.shape.kind.isMethod = true) :
    convertedNode conversion settle returns face kids = (face, kids) := by
  refine convertedNode_of_kind fun hkind => ?_
  simp only [mem_cons, not_mem_nil, or_false] at hkind
  rcases hkind with hkind | hkind | hkind | hkind | hkind <;> exact absurd h
    (by simp [hkind, NodeKind.isMethod])

theorem returnsWithin_casted (hsettle : OnlyCasts settle)
    (hplain : ReturnsPlain (.node origin face kids)) (inner outer outer' : Option Ty) :
    let result := convertedNode conversion settle outer face
      (mapKids (fun term => casted conversion settle term inner) kids)
    returnsWithin result.1 result.2 outer' = returnsWithin face kids outer' := by
  intro result
  by_cases hmethod : face.shape.kind.isMethod = true
  · rw [show result = _ from convertedNode_method hmethod]
    have hsame :
        KidsRel (fun new old => old.face.shape.kind ≠ .binary → new.face.type? = old.face.type?)
        (mapKids (fun term => casted conversion settle term inner) kids) kids :=
      KidsRel.mapKids_left_iff.mpr (KidsRel.refl kids fun _ h =>
        congrArg Face.type? (face_casted h inner))
    have hdemand :=
      congrArg (fun demand => demand.join.join)
      (demandWithin_stable hplain hsame (some (some outer')))
    simpa only [join_demandWithin, Option.join_some] using hdemand
  · have hkind : result.1.shape.kind = face.shape.kind := convertedNode_kind hsettle
    rw [returnsWithin, returnsWithin, hkind, if_neg hmethod, if_neg hmethod]

theorem returnsPlain_casted (hsettle : OnlyCasts settle) (hplain : ReturnsPlain term)
    (returns : Option Ty) :
    ReturnsPlain (casted conversion settle term returns) := by
  induction term generalizing returns with
  | node origin face kids ih =>
    rw [casted_node]
    intro other hoccurs hmethod type htype
    rcases Term.occurs_node_iff.mp hoccurs with rfl | ⟨kid, hkid, hbelow⟩
    · rw [Term.face_node, convertedNode_kind hsettle] at hmethod
      rw [Term.kids_node, convertedNode_method hmethod, kidsAt_mapKids] at htype
      have hold := hplain _ Relation.ReflTransGen.refl hmethod
      rw [Term.kids_node] at hold
      cases hkid : kidsAt .returnType kids with
      | empty => simp [hkid, Occupants.map] at htype
      | many list => simp [hkid, Occupants.map] at htype
      | one old =>
        simp only [hkid, Occupants.map, Occupants.one.injEq] at htype
        rw [← htype, kind_casted hsettle]
        exact hold old hkid
    · obtain ⟨new, hnew, hcast⟩ := mem_convertedNode hsettle hkid
      rw [allKids_mapKids] at hnew
      obtain ⟨old, hold, rfl⟩ := mem_map.mp hnew
      have hinner := ih old hold (hplain.kid hold) (returnsWithin face kids returns)
      rcases hcast with rfl | ⟨target, rfl⟩
      · exact hinner other hbelow hmethod type htype
      · rcases Term.occurs_cast_iff.mp hbelow with rfl | rfl | hbelow
        · exact absurd hmethod (by simp [Term.cast, Shape.kind, NodeKind.isMethod])
        · exact absurd hmethod (by simp [Shape.kind, NodeKind.isMethod])
        · exact hinner other hbelow hmethod type htype

/-! ## Agreement -/

/-- At a node, values agree with the types declared for them, and so do the sides of a test for
equality. -/
structure SitesAgree (agrees equal : Option Ty → Option Ty → Prop) (returns : Option Ty)
    (face : Face) (kids : Kids Term) : Prop where
  assigned : ∀ op type, face.shape = .binary op type → op.is "=" = true →
    agrees (kidType .left kids) (kidType .right kids)
  compared : ∀ op type, face.shape = .binary op type → op.isAmong ["==", "!="] = true →
    equal (kidType .left kids) (kidType .right kids)
  initial : face.shape.kind = .declaration ∨ face.shape.kind = .field →
    agrees (kidType .typeRef kids) (kidType .initializer kids)
  passed : face.shape.kind = .invocation → ∀ callee, callee? valueConversion kids = some callee →
    ∀ item ∈ (kidsAt .arguments kids).toList.zip callee.parameters, item.2.byRef = false →
      agrees item.2.type item.1.type
  returned : face.shape.kind = .returnStatement → agrees returns (kidType .expression kids)

/-- Values agree with the types declared for them at every node of a term. -/
def AgreesThroughout (agrees equal : Option Ty → Option Ty → Prop) : Term → Option Ty → Prop :=
  Term.fold fun _ face kids outcomes returns =>
    SitesAgree agrees equal returns face kids ∧ ∀ outcome ∈ allKids outcomes,
      outcome (returnsWithin face kids returns)

variable {agrees equal prior priorEqual : Option Ty → Option Ty → Prop}

theorem agreesThroughout_node_iff :
    AgreesThroughout agrees equal (.node origin face kids) returns ↔
      SitesAgree agrees equal returns face kids ∧
        ∀ kid ∈ allKids kids,
          AgreesThroughout agrees equal kid (returnsWithin face kids returns) := by
  rw [AgreesThroughout, Term.fold_node, allKids_mapKids, forall_mem_map]

theorem SitesAgree.of_kind
    (h : face.shape.kind ∉ [.binary, .declaration, .field, .invocation, .returnStatement]) :
    SitesAgree agrees equal returns face kids := by
  have hbinary : ∀ {op : Name} {type : Option Ty}, face.shape ≠ .binary op type :=
    fun hshape => h (by simp [hshape, Shape.kind])
  constructor
  · exact fun _ _ hshape => absurd hshape hbinary
  · exact fun _ _ hshape => absurd hshape hbinary
  · rintro (hkind | hkind) <;> exact absurd (by simp [hkind]) h
  · exact fun hkind => absurd (by simp [hkind]) h
  · exact fun hkind => absurd (by simp [hkind]) h

theorem agreesThroughout_cast_iff :
    AgreesThroughout agrees equal (.cast type term) returns ↔
      AgreesThroughout agrees equal term returns := by
  have hcast : ∀ kids, SitesAgree agrees equal returns ⟨.cast (some type), none, none, []⟩ kids :=
    fun _ => SitesAgree.of_kind (by simp [Shape.kind])
  have htype : AgreesThroughout agrees equal (.node none ⟨.typeRef (some type), none, none, []⟩ [])
    returns :=
    agreesThroughout_node_iff.mpr ⟨SitesAgree.of_kind (by simp [Shape.kind]), by simp [allKids_nil]⟩
  have hwithin : ∀ kids, returnsWithin ⟨.cast (some type), none, none, []⟩ kids returns = returns :=
    fun _ => rfl
  rw [Term.cast, agreesThroughout_node_iff, hwithin]
  simp [hcast, htype, allKids_cons, allKids_nil, Occupants.toList]

/-- What one pass does where a value meets a declared type, given what held there before. -/
structure Establishes (conversion : Conversion) (prior agrees : Option Ty → Option Ty → Prop) :
    Prop where
  converted : ∀ target term, prior target term.type →
    agrees target (converted conversion target term).type
  missing : ∀ target, prior target none → agrees target none
  callables : ∀ kind, valueConversion.callables.contains kind = true →
    conversion.callables.contains kind = true

theorem Establishes.kidType (h : Establishes conversion prior agrees) {target : Option Ty}
    (hprior : prior target (kidType role kids)) :
    agrees target (kidType role (changeRole role (Casts.converted conversion target) kids)) := by
  rw [UnitySharp.kidType] at hprior
  rw [kidType_changeRole_self]
  cases hkid : kidsAt role kids with
  | empty => exact h.missing target (by simpa [hkid, Occupants.one?] using hprior)
  | one term => exact h.converted target term (by simpa [hkid, Occupants.one?] using hprior)
  | many list => exact h.missing target (by simpa [hkid, Occupants.one?] using hprior)

theorem toList_convertedOccupants (parameters : List ParameterInfo) (occupants : Occupants Term) :
    (convertedOccupants conversion parameters occupants).toList =
      convertedArguments conversion parameters occupants.toList := by
  have hnil : ∀ parameters, convertedArguments conversion parameters [] = [] := fun parameters => by
    cases parameters <;> rfl
  cases occupants with
  | empty => exact (hnil parameters).symm
  | one argument =>
    cases parameters with
    | nil => rfl
    | cons parameter parameters => simp [convertedOccupants, convertedArguments, Occupants.toList,
        hnil]
  | many arguments => rfl

theorem forall_convertedArguments (prior agrees : Option Ty → Term → Prop)
    (h : ∀ target term, prior target term → agrees target (converted conversion target term))
    {parameters : List ParameterInfo} {arguments : List Term}
    (hprior : ∀ item ∈ arguments.zip parameters, item.2.byRef = false → prior item.2.type item.1) :
    ∀ item ∈ (convertedArguments conversion parameters arguments).zip parameters,
      item.2.byRef = false → agrees item.2.type item.1 := by
  induction arguments generalizing parameters with
  | nil => cases parameters <;> simp [convertedArguments]
  | cons argument arguments ih =>
    cases parameters with
    | nil => simp
    | cons parameter parameters =>
      rw [zip_cons_cons, forall_mem_cons] at hprior
      rw [convertedArguments, zip_cons_cons, forall_mem_cons]
      refine ⟨fun hvalue => ?_, ih hprior.2⟩
      rw [convertedArgument, if_neg (by simpa using hvalue)]
      exact h _ _ (hprior.1 hvalue)

theorem callee?_of_valueConversion (h : Establishes conversion prior agrees) {callee : Symbol}
    (hcallee : callee? valueConversion kids = some callee) :
      callee? conversion kids = some callee := by
  rw [callee?, Option.filter_eq_some_iff] at hcallee ⊢
  exact ⟨hcallee.1, h.callables _ hcallee.2⟩

theorem ne_binary_of_kind {kind : NodeKind} (h : face.shape.kind = kind) (hne : kind ≠ .binary)
    {type : Option Ty} :
    face.shape ≠ .binary op type :=
  fun hshape => hne (h ▸ congrArg Shape.kind hshape)

theorem SitesAgree.assignment (h : Establishes conversion prior agrees) {type : Option Ty}
    (hshape : face.shape = .binary op type)
    (hsites : SitesAgree prior priorEqual returns face kids) :
    SitesAgree agrees priorEqual returns face
      (if op.is "=" then changeRole .right (converted conversion (kidType .left kids))
        kids else kids) := by
  have hkind : face.shape.kind = .binary := congrArg Shape.kind hshape
  have hop : ∀ op' type', face.shape = .binary op' type' → op' = op := by
    intro op' type' hshape'
    cases hshape.symm.trans hshape'
    rfl
  constructor
  · intro op' type' hshape' hassign
    rw [hop op' type' hshape'] at hassign
    rw [if_pos hassign, kidType_changeRole_ne (by decide)]
    exact h.kidType (hsites.assigned op type hshape hassign)
  · intro op' type' hshape' hcompared
    have hassign : ¬op.is "=" = true := by
      intro hassign
      rw [hop op' type' hshape', Name.eq_of_is hassign] at hcompared
      exact absurd hcompared (by decide)
    rw [if_neg hassign]
    exact hsites.compared op' type' hshape' hcompared
  all_goals simp [hkind]

theorem SitesAgree.initializer (h : Establishes conversion prior agrees)
    (hkind : face.shape.kind = .declaration ∨ face.shape.kind = .field)
    (hsites : SitesAgree prior priorEqual returns face kids) :
    SitesAgree agrees equal returns face
      (changeRole .initializer (converted conversion (kidType .typeRef kids)) kids) := by
  have hbinary : ∀ {op : Name} {type : Option Ty}, face.shape ≠ .binary op type := by
    rcases hkind with hkind | hkind <;> exact ne_binary_of_kind hkind (by decide)
  constructor
  · exact fun _ _ hshape => absurd hshape hbinary
  · exact fun _ _ hshape => absurd hshape hbinary
  · intro hinitial
    rw [kidType_changeRole_ne (by decide)]
    exact h.kidType (hsites.initial hinitial)
  all_goals rcases hkind with hkind | hkind <;> simp [hkind]

theorem SitesAgree.call (h : Establishes conversion prior agrees)
    (hkind : face.shape.kind = .invocation)
    (hsites : SitesAgree prior priorEqual returns face kids) :
    SitesAgree agrees equal returns face (convertedCall conversion kids) := by
  have hbinary : ∀ {op : Name} {type : Option Ty}, face.shape ≠ .binary op type :=
    ne_binary_of_kind hkind (by decide)
  have htarget : callee? valueConversion (convertedCall conversion kids) = callee? valueConversion
    kids := by
    unfold convertedCall
    split
    · rfl
    · rw [callee?, kidsAt_setKids_ne (by decide), callee?]
  constructor
  · exact fun _ _ hshape => absurd hshape hbinary
  · exact fun _ _ hshape => absurd hshape hbinary
  · simp [hkind]
  · intro _ callee hcallee
    rw [htarget] at hcallee
    have harguments : (kidsAt .arguments (convertedCall conversion kids)).toList =
        convertedArguments conversion callee.parameters (kidsAt .arguments kids).toList := by
      rw [convertedCall, callee?_of_valueConversion h hcallee]
      simp only
      rw [kidsAt_exchanged rfl, if_pos rfl, toList_convertedOccupants]
    rw [harguments]
    exact forall_convertedArguments (fun target term => prior target term.type)
      (fun target term => agrees target term.type) h.converted (hsites.passed hkind callee hcallee)
  · simp [hkind]

theorem SitesAgree.value (h : Establishes conversion prior agrees)
    (hkind : face.shape.kind = .returnStatement)
    (hsites : SitesAgree prior priorEqual returns face kids) :
    SitesAgree agrees equal returns face
    (changeRole .expression (converted conversion returns) kids) := by
  have hbinary : ∀ {op : Name} {type : Option Ty}, face.shape ≠ .binary op type :=
    ne_binary_of_kind hkind (by decide)
  constructor
  · exact fun _ _ hshape => absurd hshape hbinary
  · exact fun _ _ hshape => absurd hshape hbinary
  · simp [hkind]
  · simp [hkind]
  · exact fun hreturned => h.kidType (hsites.returned hreturned)

theorem SitesAgree.convertedNode (h : Establishes conversion prior agrees)
    (hsettle : ∀ op type kids, face.shape = .binary op type →
      SitesAgree agrees priorEqual returns face kids →
      SitesAgree agrees equal returns (settle op face kids).1 (settle op face kids).2)
    (hsites : SitesAgree prior priorEqual returns face kids) :
    SitesAgree agrees equal returns (convertedNode conversion settle returns face kids).1
      (convertedNode conversion settle returns face kids).2 := by
  unfold Casts.convertedNode
  cases hshape : face.shape with
  | binary op type => exact hsettle op type _ hshape (hsites.assignment h hshape)
  | declaration _ _ => exact hsites.initializer h (Or.inl (congrArg Shape.kind hshape))
  | field _ _ _ => exact hsites.initializer h (Or.inr (congrArg Shape.kind hshape))
  | invocation _ => exact hsites.call h (congrArg Shape.kind hshape)
  | returnStatement => exact hsites.value h (congrArg Shape.kind hshape)
  | _ => exact SitesAgree.of_kind (by simp [hshape, Shape.kind])

theorem agreesThroughout_casted (h : Establishes conversion prior agrees) (honly : OnlyCasts settle)
    (hsettle : ∀ returns op type face kids, face.shape = .binary op type →
      SitesAgree agrees priorEqual returns face kids →
        SitesAgree agrees equal returns (settle op face kids).1
      (settle op face kids).2)
    (hkeep : ∀ returns inner face kids, SitesAgree prior priorEqual returns face kids →
      SitesAgree prior priorEqual returns face
        (mapKids (fun term => casted conversion settle term inner) kids))
    (hplain : ReturnsPlain term) (hprior : AgreesThroughout prior priorEqual term returns) :
    AgreesThroughout agrees equal (casted conversion settle term returns) returns := by
  induction term generalizing returns with
  | node origin face kids ih =>
    obtain ⟨hsites, hkids⟩ := agreesThroughout_node_iff.mp hprior
    rw [casted_node, agreesThroughout_node_iff, returnsWithin_casted honly hplain]
    refine ⟨(hkeep returns _ face kids hsites).convertedNode h (hsettle returns · · face ·), ?_⟩
    intro kid hkid
    obtain ⟨new, hnew, hcast⟩ := mem_convertedNode honly hkid
    rw [allKids_mapKids] at hnew
    obtain ⟨old, hold, rfl⟩ := mem_map.mp hnew
    have hinner := ih old hold (hplain.kid hold) (hkids old hold)
    rcases hcast with rfl | ⟨type, rfl⟩
    · exact hinner
    · exact agreesThroughout_cast_iff.mpr hinner

/-! ### The two passes -/

theorem establishes_valueConversion :
    Establishes valueConversion (fun _ _ => True) fun target source =>
      Ty.needsCast target source = false where
  converted := by
    intro target term _
    cases target with
    | none => rfl
    | some type =>
      rw [converted]
      split
      · exact Ty.needsCast_self type
      · rename_i hneeded
        exact eq_false_of_ne_true hneeded
  missing := fun target _ => Ty.needsCast_none target
  callables := fun _ h => h

theorem establishes_enumConversion :
    Establishes enumConversion (fun target source => Ty.needsCast target source = false)
      Ty.Agree where
  converted := by
    intro target term hprior
    cases target with
    | none => exact ⟨rfl, rfl⟩
    | some type =>
      rw [converted]
      split
      · exact ⟨Ty.needsCast_self type, Ty.enumMismatch_self _⟩
      · rename_i hneeded
        exact ⟨hprior, eq_false_of_ne_true hneeded⟩
  missing := fun target hprior => ⟨hprior, Ty.enumMismatch_none target⟩
  callables := fun kind h => by cases kind <;> first | rfl | exact absurd h (by decide)

theorem SitesAgree.operator {type : Option Ty} (hshape : face.shape = .binary op type)
    (hassigned : op.is "=" = true → agrees (kidType .left kids) (kidType .right kids))
    (hcompared : op.isAmong ["==", "!="] = true →
      equal (kidType .left kids) (kidType .right kids)) :
    SitesAgree agrees equal returns face kids := by
  have hkind : face.shape.kind = .binary := congrArg Shape.kind hshape
  constructor
  · intro op' type' hshape'
    cases hshape.symm.trans hshape'
    exact hassigned
  · intro op' type' hshape'
    cases hshape.symm.trans hshape'
    exact hcompared
  all_goals simp [hkind]

theorem sitesAgree_settledArithmetic {type : Option Ty} (hshape : face.shape = .binary op type)
    (hsites : SitesAgree agrees (fun _ _ => True) returns face kids) :
    SitesAgree agrees (fun _ _ => True) returns (settledArithmetic op face kids).1
      (settledArithmetic op face kids).2 := by
  obtain ⟨type', hshape'⟩ := onlyCasts_settledArithmetic.shape hshape kids
  refine SitesAgree.operator hshape' (fun hassign => ?_) fun _ => trivial
  have hop := Name.eq_of_is hassign
  subst hop
  rw [onlyCasts_settledArithmetic.assignment]
  exact hsites.assigned _ type hshape hassign

theorem enumMismatch_settledEquality (hop : op.isAmong ["==", "!="] = true) :
    Ty.enumMismatch (kidType .left (settledEquality op face kids).2)
    (kidType .right (settledEquality op face kids).2) = false := by
  have hone : ∀ {role : Role} {type : Ty}, kidType role (changeRole role (.cast type) kids) =
      some type ∨ kidType role (changeRole role (.cast type) kids) = none := by
    intro role type
    rw [kidType_changeRole_self]
    cases kidsAt role kids
    · exact Or.inr rfl
    · exact Or.inl rfl
    · exact Or.inr rfl
  unfold settledEquality
  rw [hop, Bool.true_and]
  split
  · split
    · rename_i left right hleft hright
      split
      · rw [kidType_changeRole_ne (by decide), hleft]
        rcases hone with h | h <;> rw [h]
        · exact Ty.enumMismatch_self _
        · rfl
      · have hother : kidType .right (changeRole .left (.cast right) kids) = some right :=
          (kidType_changeRole_ne (by decide)).trans hright
        rw [hother]
        rcases hone with h | h <;> rw [h]
        · exact Ty.enumMismatch_self _
        · rfl
    · rename_i hmismatch _ _ hnone
      unfold Ty.enumMismatch at hmismatch
      split at hmismatch
      · exact absurd ‹_› (hnone _ _ ‹_›)
      · exact absurd hmismatch (by simp)
  · rename_i hmismatch
    exact eq_false_of_ne_true hmismatch

theorem sitesAgree_settledEquality {type : Option Ty} (hshape : face.shape = .binary op type)
    (hsites : SitesAgree agrees (fun _ _ => True) returns face kids) :
    SitesAgree agrees (fun left right => Ty.enumMismatch left right = false) returns
    (settledEquality op face kids).1 (settledEquality op face kids).2 := by
  have hface := settledEquality_face op face kids
  rw [hface]
  refine SitesAgree.operator hshape (fun hassign => ?_) fun hcompared =>
    enumMismatch_settledEquality hcompared
  have hop := Name.eq_of_is hassign
  subst hop
  rw [onlyCasts_settledEquality.assignment]
  exact hsites.assigned _ type hshape hassign

theorem convertedNode_enums_face :
    (convertedNode enumConversion settledEquality returns face kids).1 = face := by
  unfold convertedNode
  split
  · exact settledEquality_face _ _ _
  all_goals rfl

theorem face_castedEnums (term : Term) (returns : Option Ty) :
    (casted enumConversion settledEquality term returns).face = term.face := by
  cases term
  rw [casted_node, Term.face_node, Term.face_node, convertedNode_enums_face]

theorem SitesAgree.mapKids (hsites : SitesAgree agrees equal returns face kids)
    (hf : ∀ term, (f term).face = term.face) :
    SitesAgree agrees equal returns face (mapKids f kids) := by
  have hkid : ∀ role, kidType role (UnitySharp.mapKids f kids) = kidType role kids := by
    intro role
    rw [kidType_mapKids, kidType]
    refine congrArg (Option.bind _) (funext fun term => ?_)
    rw [Term.type, hf, Term.type]
  have htarget : callee? valueConversion (UnitySharp.mapKids f kids) = callee? valueConversion
    kids := by
    rw [callee?, callee?, kidsAt_mapKids, Occupants.one?_map, Option.bind_map]
    simp only [Function.comp_def, hf]
  constructor
  · intro op type hshape hassign
    rw [hkid, hkid]
    exact hsites.assigned op type hshape hassign
  · intro op type hshape hcompared
    rw [hkid, hkid]
    exact hsites.compared op type hshape hcompared
  · intro hinitial
    rw [hkid, hkid]
    exact hsites.initial hinitial
  · intro hkind callee hcallee item hitem hvalue
    rw [htarget] at hcallee
    rw [kidsAt_mapKids, Occupants.toList_map, zip_map_left] at hitem
    obtain ⟨old, hold, rfl⟩ := mem_map.mp hitem
    have hagrees := hsites.passed hkind callee hcallee old hold hvalue
    rwa [Term.type, Prod.map_fst, hf]
  · intro hreturned
    rw [hkid]
    exact hsites.returned hreturned

theorem agreesThroughout_true (term : Term) (returns : Option Ty) :
    AgreesThroughout (fun _ _ => True) (fun _ _ => True) term returns := by
  induction term generalizing returns with
  | node origin face kids ih =>
    refine agreesThroughout_node_iff.mpr ⟨?_, fun kid hkid => ih kid hkid _⟩
    constructor
    all_goals intros; trivial

def castedValues (term : Term) : Term :=
  casted valueConversion settledArithmetic term none

def castedEnums (term : Term) : Term :=
  casted enumConversion settledEquality term none

theorem agreesThroughout_castedEnums (hplain : ReturnsPlain term) :
    AgreesThroughout Ty.Agree (fun left right => Ty.enumMismatch left right = false)
      (castedEnums (castedValues term)) none := by
  refine agreesThroughout_casted establishes_enumConversion onlyCasts_settledEquality
    (fun _ _ _ _ _ => sitesAgree_settledEquality)
    (fun _ _ _ _ hsites => hsites.mapKids fun term => face_castedEnums term _)
    (returnsPlain_casted onlyCasts_settledArithmetic hplain none) ?_
  exact agreesThroughout_casted establishes_valueConversion onlyCasts_settledArithmetic
    (fun _ _ _ _ _ => sitesAgree_settledArithmetic)
    (fun _ _ _ _ _ => ⟨fun _ _ _ _ => trivial, fun _ _ _ _ => trivial, fun _ => trivial,
      fun _ _ _ _ _ _ => trivial, fun _ => trivial⟩)
    hplain (agreesThroughout_true term none)

/-! ## One cast at most -/

def Retyped (face after : Face) : Prop :=
  after = face ∨ ∃ op type number, face.shape = .binary op type ∧
    op.isAmong ["+", "-", "*", "/", "%"] = true ∧ face.type?.join.any Ty.isObject = true ∧
    number.isNumeric = true ∧ after = face.withType (some number)

/-- A term with casts put in: each of its nodes is where it was, or beneath one new cast that is
there. -/
def Recast : Term → Term → Prop :=
  Term.fold fun origin face _ outcomes after =>
    after.origin = origin ∧ Retyped face after.face ∧
      KidsRel (fun outcome new => outcome new ∨ ∃ type inner, new = .cast type inner ∧
        outcome inner) outcomes after.kids

theorem recast_node_iff {after : Term} :
    Recast (.node origin face kids) after ↔
      after.origin = origin ∧ Retyped face after.face ∧
        KidsRel (fun old new => Recast old new ∨ ∃ type inner, new = .cast type inner ∧
          Recast old inner) kids after.kids := by
  rw [Recast, Term.fold_node, KidsRel.mapKids_left_iff]

theorem retyped_settledArithmetic {type : Option Ty} (hshape : face.shape = .binary op type) :
    Retyped face (settledArithmetic op face kids).1 := by
  unfold settledArithmetic
  split
  · rename_i hobject
    rw [Bool.and_eq_true] at hobject
    split
    · rename_i number hnumber
      exact Or.inr ⟨op, type, number, hshape, hobject.1, hobject.2,
        (Option.filter_eq_some_iff.mp hnumber).2, rfl⟩
    · rename_i number _ hnumber
      exact Or.inr ⟨op, type, number, hshape, hobject.1, hobject.2,
        (Option.filter_eq_some_iff.mp hnumber).2, rfl⟩
    · exact Or.inl rfl
  · exact Or.inl rfl

theorem retyped_convertedNode :
    Retyped face (convertedNode valueConversion settledArithmetic returns face kids).1 := by
  unfold convertedNode
  split
  · exact retyped_settledArithmetic ‹_›
  all_goals exact Or.inl rfl

theorem castedEnums_cast (type : Ty) (term : Term) (returns : Option Ty) :
    casted enumConversion settledEquality (.cast type term) returns =
      .cast type (casted enumConversion settledEquality term returns) := by
  rw [Term.cast, casted_node]
  simp [mapKids, casted_node, convertedNode, returnsWithin, Shape.kind, NodeKind.isMethod,
    Occupants.map, Term.cast]

section Twice

/-! ### Both passes at one node -/

variable {d e : Term → Term} (hface : ∀ term, (e term).face = term.face)
  (hcast : ∀ type term, e (.cast type term) = .cast type (e term))

include hface in
theorem kidType_mapKids_of_face : kidType role (mapKids e kids) = kidType role kids := by
  rw [kidType_mapKids, kidType]
  refine congrArg (Option.bind _) (funext fun term => ?_)
  rw [Term.type, hface, Term.type]

include hcast in
theorem castOf_converted_twice (target : Option Ty) (term : Term) :
    CastOf (e term)
    (converted enumConversion target (e (converted valueConversion target term))) := by
  cases target with
  | none => exact Or.inl rfl
  | some type =>
    change CastOf _ (converted enumConversion (some type)
      (e (if valueConversion.needed (some type) term.type then .cast type term else term)))
    split
    · refine Or.inr ⟨type, ?_⟩
      rw [hcast, converted, Term.type_cast]
      exact if_neg (by simp [enumConversion, Ty.enumMismatch_self])
    · exact castOf_converted _ _

include hcast in
theorem castOf_convertedArguments_twice (parameters : List ParameterInfo) (arguments : List Term) :
    List.Forall₂ (fun old new => CastOf (e (d old)) new) arguments
      (convertedArguments enumConversion parameters
        ((convertedArguments valueConversion parameters (arguments.map d)).map e)) := by
  induction arguments generalizing parameters with
  | nil => cases parameters <;> exact .nil
  | cons argument arguments ih =>
    cases parameters with
    | nil =>
      simp only [convertedArguments]
      rw [List.map_map, forall₂_map_right_iff]
      exact forall₂_same.mpr fun _ _ => Or.inl rfl
    | cons parameter parameters =>
      refine .cons ?_ (ih parameters)
      unfold convertedArgument
      cases parameter.byRef with
      | true => exact Or.inl rfl
      | false => exact castOf_converted_twice hcast parameter.type (d argument)

include hcast in
theorem castOf_convertedOccupants_twice (parameters : List ParameterInfo)
    (occupants : Occupants Term) :
    Occupants.Rel (fun old new => CastOf (e (d old)) new) occupants
      (convertedOccupants enumConversion parameters
        ((convertedOccupants valueConversion parameters (occupants.map d)).map e)) := by
  cases occupants with
  | empty => exact .empty
  | one argument =>
    cases parameters with
    | nil => exact .one (Or.inl rfl)
    | cons parameter parameters =>
      have hone := castOf_convertedArguments_twice (d := d) hcast
        (parameter :: parameters) [argument]
      exact .one (forall₂_cons.mp hone).1
  | many arguments => exact .many (castOf_convertedArguments_twice hcast parameters arguments)

theorem twice_changeRole (role : Role) (kids : Kids Term) {g : Term → Term}
    (h : ∀ term, CastOf (e term) (g (e (f term)))) :
    KidsRel (fun old new => CastOf (e (d old)) new) kids
      (changeRole role g (mapKids e (changeRole role f (mapKids d kids)))) := by
  refine KidsRel.exchanged_twice kids (fun _ => Or.inl rfl) fun occupants => ?_
  rw [Occupants.map_map, Occupants.map_map, Occupants.map_map]
  exact Occupants.Rel.of_map occupants fun term => h (d term)

theorem twice_second {others : Kids Term} (h : KidsRel CastOf (mapKids e (mapKids d kids)) others) :
    KidsRel (fun old new => CastOf (e (d old)) new) kids others := by
  rwa [mapKids_mapKids, KidsRel.mapKids_left_iff] at h

theorem twice_unchanged (kids : Kids Term) :
    KidsRel (fun old new => CastOf (e (d old)) new) kids (mapKids e (mapKids d kids)) :=
  twice_second (KidsRel.refl _ fun _ => Or.inl rfl)

include hcast in
theorem twice_settled (op : Name) (face face' : Face) (kids : Kids Term) :
    KidsRel (fun old new => CastOf (e (d old)) new) kids
      (settledEquality op face' (mapKids e (settledArithmetic op face (mapKids d kids)).2)).2 := by
  by_cases hequality : op.isAmong ["==", "!="] = true
  · have harithmetic : settledArithmetic op face (mapKids d kids) = (face, mapKids d kids) := by
      have hnot : op.isAmong ["+", "-", "*", "/", "%"] = false := by
        cases op <;> simp_all [Name.isAmong]
        rcases hequality with rfl | rfl <;> decide
      rw [settledArithmetic, hnot]
      rfl
    rw [harithmetic]
    exact twice_second (castOf_settled onlyCasts_settledEquality op face' _)
  · have hsettled : ∀ kids, settledEquality op face' kids = (face', kids) := fun kids => by
      rw [settledEquality, eq_false_of_ne_true hequality]
      rfl
    rw [hsettled]
    rcases onlyCasts_settledArithmetic.kids op face (mapKids d kids) with hsame | ⟨role, type,
      hcasted⟩
    · rw [hsame]
      exact twice_unchanged kids
    · have htwice := twice_changeRole (d := d) (e := e) role kids (f := .cast type)
        (g := fun term => term) fun term => Or.inr ⟨type, hcast type term⟩
      rw [hcasted]
      rwa [changeRole_of_same fun _ _ => rfl] at htwice

include hface hcast in
theorem twice_call (kids : Kids Term) :
    KidsRel (fun old new => CastOf (e (d old)) new) kids
      (convertedCall enumConversion
        (mapKids e (convertedCall valueConversion (mapKids d kids)))) := by
  cases hvalue : callee? valueConversion (mapKids d kids) with
  | none =>
    rw [convertedCall_of_none hvalue]
    exact twice_second (castOf_convertedCall _ _)
  | some callee =>
    have henum :
        callee? enumConversion (mapKids e (convertedCall valueConversion (mapKids d kids))) =
        some callee := by
      rw [← callee?_of_valueConversion establishes_enumConversion hvalue,
        convertedCall_of_some hvalue, callee?, callee?, kidsAt_mapKids,
        kidsAt_setKids_ne (by decide), Occupants.one?_map, Option.bind_map]
      simp only [Function.comp_def, hface]
    rw [convertedCall_of_some henum, convertedCall_of_some hvalue]
    exact KidsRel.exchanged_twice kids (fun _ => Or.inl rfl)
      (castOf_convertedOccupants_twice hcast callee.parameters)

include hface hcast in
theorem twice_converted {role other : Role} (hne : other ≠ role) (kids : Kids Term) :
    let first := changeRole role (converted valueConversion (kidType other (mapKids d kids)))
      (mapKids d kids)
    KidsRel (fun old new => CastOf (e (d old)) new) kids
      (changeRole role (converted enumConversion (kidType other (mapKids e first)))
        (mapKids e first)) := by
  intro first
  rw [kidType_mapKids_of_face hface, kidType_changeRole_ne hne]
  exact twice_changeRole role kids (castOf_converted_twice hcast _)

include hface hcast in
theorem twice_convertedNode (returns : Option Ty) (face : Face) (kids : Kids Term) :
    let first := convertedNode valueConversion settledArithmetic returns face (mapKids d kids)
    KidsRel (fun old new => CastOf (e (d old)) new) kids
      (convertedNode enumConversion settledEquality returns first.1 (mapKids e first.2)).2 := by
  intro first
  cases hshape : face.shape with
  | binary op type =>
    have hfirst : first = _ := convertedNode_binary hshape
    obtain ⟨type', hshape'⟩ := onlyCasts_settledArithmetic.shape hshape _
    rw [hfirst, convertedNode_binary hshape']
    by_cases hassign : op.is "=" = true
    · rw [if_pos hassign, if_pos hassign, Name.eq_of_is hassign,
        onlyCasts_settledArithmetic.assignment, onlyCasts_settledEquality.assignment]
      exact twice_converted hface hcast (by decide) kids
    · rw [if_neg hassign, if_neg hassign]
      exact twice_settled hcast op face _ kids
  | declaration _ _ =>
    have hkind : face.shape.kind = .declaration ∨ face.shape.kind = .field :=
      Or.inl (congrArg Shape.kind hshape)
    rw [show first = _ from convertedNode_initializer hkind, convertedNode_initializer hkind]
    exact twice_converted hface hcast (by decide) kids
  | field _ _ _ =>
    have hkind : face.shape.kind = .declaration ∨ face.shape.kind = .field :=
      Or.inr (congrArg Shape.kind hshape)
    rw [show first = _ from convertedNode_initializer hkind, convertedNode_initializer hkind]
    exact twice_converted hface hcast (by decide) kids
  | invocation _ =>
    have hkind := congrArg Shape.kind hshape
    rw [show first = _ from convertedNode_call hkind, convertedNode_call hkind]
    exact twice_call hface hcast kids
  | returnStatement =>
    have hkind := congrArg Shape.kind hshape
    rw [show first = _ from convertedNode_return hkind, convertedNode_return hkind]
    exact twice_changeRole .expression kids (castOf_converted_twice hcast returns)
  | _ =>
    have hkind : face.shape.kind ∉
      [.binary, .declaration, .field, .invocation, .returnStatement] := by
      simp [hshape, Shape.kind]
    rw [show first = _ from convertedNode_of_kind hkind, convertedNode_of_kind hkind]
    exact twice_unchanged kids

end Twice

/-- After both passes, each node is in its place, with at most one new cast around it. -/
theorem recast_casted (hplain : ReturnsPlain term) (returns : Option Ty) :
    Recast term
      (casted enumConversion settledEquality (casted valueConversion settledArithmetic term returns)
        returns) := by
  induction term generalizing returns with
  | node origin face kids ih =>
    rw [casted_node, casted_node, returnsWithin_casted onlyCasts_settledArithmetic hplain,
      recast_node_iff]
    refine ⟨rfl, ?_, ?_⟩
    · rw [Term.face_node, convertedNode_enums_face]
      exact retyped_convertedNode
    · refine (twice_convertedNode (fun term => face_castedEnums term _) (fun type term =>
        castedEnums_cast type term _) returns face kids).mono fun old hold new _ hnew => ?_
      have hinner := ih old hold (hplain.kid hold) (returnsWithin face kids returns)
      rcases hnew with rfl | ⟨type, rfl⟩
      · exact Or.inl hinner
      · exact Or.inr ⟨type, _, rfl, hinner⟩

end Casts

end UnitySharp
