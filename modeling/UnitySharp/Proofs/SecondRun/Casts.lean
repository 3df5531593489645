import UnitySharp.Proofs.Pass.Agreement

/-!
# Casts at rest

After one run of a pass that puts in casts, no value needs a cast any more.  Whether a `return` is
calm depends on a type that is declared further up, so the property that a run establishes carries
this type along.
-/

namespace UnitySharp

open UnitySharp.Tree Pass List

theorem Ty.isObject_of_isNumeric {type : Ty} (h : type.isNumeric = true) :
    type.isObject = false := by
  rw [Ty.isNumeric, Bool.and_eq_true, Ty.isPrimitive, beq_iff_eq] at h
  simp [Ty.isObject, h.2]

namespace Casts

variable {known : NodeId → Prop} {s : Session} {t : Tree} {id c : NodeId} {origin : Option NodeId}
  {face : Face} {faces : Kids Face} {kids : Kids Term} {role giver : Role} {conversion : Conversion}
  {declared type : Option Ty} {atRest needs : Name → Face → Kids Face → Prop} {stable : Face → Prop}
  {demand : Demand} {settle : Name → Face → Kids Term → Face × Kids Term}
  {atOperator : NodeId → Name → Pass Unit} {visit : NodeId → Pass Unit} {term : Term} {op : Name}
  {f : Term → Term} {roles : List Role}

/-! ## Values that meet their types -/

/-- A value that has a type and needs no cast to a declared one. -/
def Met (conversion : Conversion) (declared : Option Ty) (face : Face) : Prop :=
  ∃ source, face.type? = some source ∧ ∀ type, declared = some type →
    conversion.needed (some type) source = false

def MetIn (conversion : Conversion) (declared : Option Ty) (faces : Kids Face) (role : Role) :
    Prop :=
  ∃ face, (kidsAt role faces).one? = some face ∧ Met conversion declared face

def Meets (conversion : Conversion) (faces : Kids Face) (giver role : Role) : Prop :=
  ∃ declared, typeIn? faces giver = some declared ∧ MetIn conversion declared faces role

def InitializerMet (conversion : Conversion) (faces : Kids Face) : Prop :=
  (kidsAt .initializer faces).isEmpty = false → (kidsAt .typeRef faces).isEmpty = false →
    Meets conversion faces .typeRef .initializer

def ArgumentsMet (conversion : Conversion) (faces : Kids Face) : Prop :=
  ∀ callee, ((boundIn faces).filter fun callee => conversion.callables.contains callee.kind) =
    some callee → ∀ item ∈ (kidsAt .arguments faces).toList.zip callee.parameters,
      item.2.byRef = false → Met conversion item.2.type item.1

def ReturnMet (conversion : Conversion) (demand : Demand) (faces : Kids Face) : Prop :=
  (kidsAt .expression faces).isEmpty = false → ∀ answer, demand = some answer →
    ∃ declared, answer = some declared ∧ MetIn conversion declared faces .expression

/-- No value that meets a declared type at a node needs a cast. -/
def Calm (conversion : Conversion) (atRest : Name → Face → Kids Face → Prop) (demand : Demand)
    (face : Face) (faces : Kids Face) : Prop :=
  match face.shape with
  | .binary op _ => (op.is "=" → Meets conversion faces .left .right) ∧ atRest op face faces
  | .declaration _ _ | .field _ _ _ => InitializerMet conversion faces
  | .invocation _ => ArgumentsMet conversion faces
  | .returnStatement => ReturnMet conversion demand faces
  | _ => True

/-- All nodes of a term are calm, given what is demanded of a `return`. -/
def Rests (conversion : Conversion) (atRest : Name → Face → Kids Face → Prop) :
    Term → Demand → Prop :=
  Term.fold fun _ face kids outcomes demand =>
    Calm conversion atRest demand face (mapKids Term.face kids) ∧
      ∀ outcome ∈ allKids outcomes, outcome (demandWithin face (mapKids Term.face kids) demand)

theorem rests_node_iff :
    Rests conversion atRest (.node origin face kids) demand ↔
      Calm conversion atRest demand face (mapKids Term.face kids) ∧
        ∀ kid ∈ allKids kids,
          Rests conversion atRest kid (demandWithin face (mapKids Term.face kids) demand) := by
  rw [Rests, Term.fold_node, allKids_mapKids, forall_mem_map]

theorem rests_cast {type : Ty} (h : Rests conversion atRest term demand) :
    Rests conversion atRest (.cast type term) demand := by
  rw [Term.cast, rests_node_iff]
  refine ⟨trivial, fun kid hkid => ?_⟩
  have hdemand : ∀ faces, demandWithin ⟨.cast (some type), none, none, []⟩ faces demand = demand :=
    fun _ => rfl
  rw [hdemand]
  simp only [allKids, flatMap_cons, flatMap_nil, Occupants.toList, cons_append, nil_append,
    mem_cons, not_mem_nil, or_false] at hkid
  rcases hkid with rfl | rfl
  · exact rests_node_iff.mpr ⟨trivial, fun _ hnone => absurd hnone (by simp [allKids])⟩
  · exact h

theorem CastOf.rests {after : Term} (h : CastOf term after)
    (hrests : Rests conversion atRest term demand) :
    Rests conversion atRest after demand := by
  rcases h with rfl | ⟨type, rfl⟩
  · exact hrests
  · exact rests_cast hrests

theorem rests_of_casts {other : Face} {laters : Kids Term}
    (hkind : other.shape.kind = face.shape.kind) (hmethod : face.shape.kind.isMethod = false)
    (hcasts : KidsRel CastOf kids laters) (hkids : ∀ kid ∈ allKids kids,
      Rests conversion atRest kid (demandWithin face (mapKids Term.face kids) demand))
    (hcalm : Calm conversion atRest demand other (mapKids Term.face laters)) :
    Rests conversion atRest (.node origin other laters) demand := by
  refine rests_node_iff.mpr ⟨hcalm, fun kid hkid => ?_⟩
  obtain ⟨old, hold, hcast⟩ := hcasts.exists_left hkid
  rw [demandWithin_of_kind hkind hmethod]
  exact hcast.rests (hkids old hold)

/-! ## Conversions at a node -/

/-- No type needs a cast to itself. -/
def Reflexive (conversion : Conversion) : Prop :=
  ∀ type, conversion.needed (some type) (some type) = false

theorem kidsAt_setKids_one {other : Term} (h : kidsAt role kids = .one term) (queried : Role) :
    kidsAt queried (setKids role (.one other) kids) = if queried = role then .one other else kidsAt
      queried kids := by
  have hexchanged := @kidsAt_exchanged Term role (fun occupants => occupants.map fun _ => other) rfl
    kids queried
  rw [h] at hexchanged
  refine hexchanged.trans ?_
  split
  · rename_i heq
    rw [heq, h]
    rfl
  · rfl

theorem met_converted (hself : Reflexive conversion) (htype : term.face.type? = some type) :
    Met conversion declared (converted conversion declared term).face := by
  have hsource : term.type = type := by rw [Term.type, htype, Option.join_some]
  cases declared with
  | none => exact ⟨type, htype, fun _ hnone => by cases hnone⟩
  | some target =>
    simp only [converted, hsource]
    split
    · refine ⟨some target, rfl, ?_⟩
      rintro _ ⟨⟩
      exact hself target
    · rename_i hneeded
      refine ⟨type, htype, ?_⟩
      rintro _ ⟨⟩
      exact eq_false_of_ne_true hneeded

theorem exists_one_of_typeIn? (h : typeIn? (mapKids Term.face kids) role = some type) :
    ∃ term, kidsAt role kids = .one term ∧ term.face.type? = some type := by
  rw [typeIn?, kidsAt_mapKids] at h
  cases hkid : kidsAt role kids with
  | empty => simp [hkid, Occupants.map, Occupants.one?] at h
  | one term => exact ⟨term, rfl, by simpa [hkid, Occupants.map, Occupants.one?] using h⟩
  | many terms => simp [hkid, Occupants.map, Occupants.one?] at h

theorem kidType_eq_join (role : Role) (kids : Kids Term) :
    kidType role kids = (typeIn? (mapKids Term.face kids) role).join := by
  rw [kidType, typeIn?, kidsAt_mapKids]
  cases kidsAt role kids <;> rfl

theorem typeIn?_changeRole_ne {other : Role} (hne : other ≠ role) :
    typeIn? (mapKids Term.face (changeRole role f kids)) other = typeIn? (mapKids Term.face kids)
      other := by
  rw [typeIn?, typeIn?, kidsAt_mapKids, kidsAt_mapKids, changeRole, kidsAt_setKids_ne hne]

theorem isEmpty_changeRole (queried : Role) :
    (kidsAt queried (mapKids Term.face (changeRole role f kids))).isEmpty =
      (kidsAt queried (mapKids Term.face kids)).isEmpty := by
  rw [kidsAt_mapKids, kidsAt_mapKids, changeRole, kidsAt_exchanged rfl]
  split
  · cases kidsAt queried kids <;> simp [Occupants.map, Occupants.isEmpty]
  · rfl

theorem metIn_changeRole (hself : Reflexive conversion)
    (h : TypesKnown (mapKids Term.face kids) [role]) :
    MetIn conversion declared
    (mapKids Term.face (changeRole role (converted conversion declared) kids)) role := by
  obtain ⟨type, htype⟩ := h role (by simp)
  obtain ⟨term, hkid, hterm⟩ := exists_one_of_typeIn? htype
  refine ⟨(converted conversion declared term).face, ?_, met_converted hself hterm⟩
  rw [changeRole_of_one hkid, kidsAt_mapKids, kidsAt_setKids_one hkid, if_pos rfl]
  rfl

theorem meets_changeRole (hself : Reflexive conversion) (hne : giver ≠ role)
    (h : TypesKnown (mapKids Term.face kids) [giver, role]) :
    Meets conversion
      (mapKids Term.face (changeRole role (converted conversion (kidType giver kids)) kids)) giver
      role := by
  obtain ⟨declared, hdeclared⟩ := h giver (by simp)
  refine ⟨declared, by rwa [typeIn?_changeRole_ne hne], ?_⟩
  rw [kidType_eq_join, hdeclared, Option.join_some]
  exact metIn_changeRole hself fun other hother => h other (by simp_all)

theorem boundIn_eq (kids : Kids Term) :
    (boundIn (mapKids Term.face kids)).filter (fun callee =>
      conversion.callables.contains callee.kind) = callee? conversion kids := by
  rw [boundIn, callee?, kidsAt_mapKids, Occupants.one?_map, Option.bind_map]
  rfl

theorem argumentsMet_convertedCall (hself : Reflexive conversion)
    (h : ∀ callee, callee? conversion kids = some callee →
      ∀ item ∈ (kidsAt .arguments kids).toList.zip callee.parameters, item.2.byRef = false →
        ∃ type, item.1.face.type? = some type) :
    ArgumentsMet conversion (mapKids Term.face (convertedCall conversion kids)) := by
  have htarget : callee? conversion (convertedCall conversion kids) = callee? conversion kids := by
    unfold convertedCall
    split
    · rfl
    · rw [callee?, kidsAt_setKids_ne (by decide), callee?]
  intro callee hcallee item hitem hvalue
  rw [boundIn_eq, htarget] at hcallee
  rw [kidsAt_mapKids, convertedCall_of_some hcallee, kidsAt_exchanged rfl, if_pos rfl,
    Occupants.toList_map, toList_convertedOccupants, zip_map_left, mem_map] at hitem
  obtain ⟨found, hfound, rfl⟩ := hitem
  exact forall_convertedArguments (fun _ term => ∃ type, term.face.type? = some type)
    (fun target term => Met conversion target term.face)
    (fun _ _ ⟨_, htype⟩ => met_converted hself htype) (h callee hcallee) found hfound hvalue

/-- Operators are at rest once they have been settled, if the types that are looked up were
there. -/
def SettlesInto (settle : Name → Face → Kids Term → Face × Kids Term)
    (needs atRest : Name → Face → Kids Face → Prop) : Prop :=
  ∀ op type face kids, face.shape = .binary op type →
    (op.is "=" = false → needs op face (mapKids Term.face kids)) →
    atRest op (settle op face kids).1 (mapKids Term.face (settle op face kids).2)

theorem calm_convertedNode (hself : Reflexive conversion) (honly : OnlyCasts settle)
    (hsettles : SettlesInto settle needs atRest)
    (h : KnownAt conversion needs demand face (mapKids Term.face kids)) :
    Calm conversion atRest demand (convertedNode conversion settle demand.join.join face kids).1
      (mapKids Term.face (convertedNode conversion settle demand.join.join face kids).2) := by
  unfold KnownAt at h
  cases hshape : face.shape with
  | binary op type =>
    simp only [hshape] at h
    rw [convertedNode_binary hshape]
    obtain ⟨type', hshape'⟩ := honly.shape hshape
      (if op.is "=" then changeRole .right (converted conversion (kidType .left kids))
        kids else kids)
    simp only [Calm, hshape']
    refine ⟨fun hassign => ?_, hsettles op type face _ hshape fun hassign => ?_⟩
    · rw [if_pos hassign] at h ⊢
      rw [Name.eq_of_is hassign, honly.assignment]
      exact meets_changeRole hself (by decide) h
    · rw [hassign] at h ⊢
      exact h
  | declaration _ _ =>
    simp only [hshape] at h
    simp only [convertedNode, hshape, Calm, InitializerMet, isEmpty_changeRole]
    exact fun hinitializer htypeRef => meets_changeRole hself (by decide) (h hinitializer htypeRef)
  | field _ _ _ =>
    simp only [hshape] at h
    simp only [convertedNode, hshape, Calm, InitializerMet, isEmpty_changeRole]
    exact fun hinitializer htypeRef => meets_changeRole hself (by decide) (h hinitializer htypeRef)
  | invocation _ =>
    simp only [hshape, boundIn_eq, kidsAt_mapKids, Occupants.toList_map, zip_map_left,
      forall_mem_map] at h
    simp only [convertedNode, hshape, Calm]
    exact argumentsMet_convertedCall hself h
  | returnStatement =>
    simp only [hshape] at h
    simp only [convertedNode, hshape, Calm, ReturnMet, isEmpty_changeRole]
    intro hexpression answer hanswer
    obtain ⟨⟨declared, rfl⟩, hknown⟩ := h hexpression answer hanswer
    rw [hanswer]
    exact ⟨declared, rfl, metIn_changeRole hself hknown⟩
  | _ => simp only [convertedNode, hshape, Calm]

theorem rests_casted (hself : Reflexive conversion) (honly : OnlyCasts settle)
    (hsettles : SettlesInto settle needs atRest)
    (hsettle : Settles known settle needs stable atOperator)
    (hstable : ReturnsStable stable term) (h : KnownAlong conversion settle needs term demand) :
    Rests conversion atRest (casted conversion settle term demand.join.join) demand := by
  induction term generalizing demand with
  | node origin face kids ih =>
    obtain ⟨hknown, hbelow⟩ := knownAlong_node_iff.mp h
    rw [casted_node]
    have hcalm := calm_convertedNode hself honly hsettles hknown
    have hkids : ∀ kid ∈ allKids (mapKids (fun term => casted conversion settle term
        (returnsWithin face kids demand.join.join)) kids),
        Rests conversion atRest kid (demandWithin face (mapKids Term.face (mapKids (fun term =>
          casted conversion settle term (returnsWithin face kids demand.join.join)) kids))
            demand) := by
      rw [allKids_mapKids, forall_mem_map]
      intro kid hkid
      rw [demandWithin_stable hstable (KidsRel.mapKids_left_iff.mpr
        (KidsRel.refl kids fun _ h => type?_casted hsettle h _)), ← join_demandWithin]
      exact ih kid hkid (hstable.kid hkid) (hbelow kid hkid)
    cases hmethod : face.shape.kind.isMethod with
    | false =>
      exact rests_of_casts (convertedNode_kind honly) hmethod (castOf_convertedNode honly) hkids
        hcalm
    | true =>
      rw [convertedNode_method hmethod] at hcalm ⊢
      exact rests_node_iff.mpr ⟨hcalm, hkids⟩

/-! ## Operators -/

/-- Arithmetic of type `object` has no number on either side. -/
def ArithmeticRests (op : Name) (face : Face) (faces : Kids Face) : Prop :=
  ∃ arithmetic, op.isIn ["+", "-", "*", "/", "%"] = .ok arithmetic ∧
    ((arithmetic && face.type?.join.any Ty.isObject) = true → TypesKnown faces [.left, .right] ∧
      (typeIn? faces .left).join.filter Ty.isNumeric = none ∧
        (typeIn? faces .right).join.filter Ty.isNumeric = none)

/-- In a test for equality, both sides are enumerations or none is. -/
def EqualityRests (op : Name) (_ : Face) (faces : Kids Face) : Prop :=
  op.isAmong ["==", "!="] = true → TypesKnown faces [.left, .right] ∧
    Ty.enumMismatch (typeIn? faces .left).join (typeIn? faces .right).join = false

theorem withType_binary (h : face.shape = .binary op type) (new : Option Ty) :
    (face.withType new).shape = .binary op new ∧ (face.withType new).type? = some new := by
  rw [Face.withType, if_pos (by rw [h]; rfl)]
  constructor
  · show face.shape.withType new = _
    rw [h]
    rfl
  · show (face.shape.withType new).type?.or _ = _
    rw [h]
    rfl

theorem settlesInto_arithmetic : SettlesInto settledArithmetic ArithmeticNeeds ArithmeticRests := by
  intro op type face kids hshape hneeds
  cases hassign : op.is "=" with
  | true =>
    rw [Name.eq_of_is hassign]
    exact ⟨false, rfl, by simp⟩
  | false =>
    obtain ⟨arithmetic, harithmetic, hknown⟩ := hneeds hassign
    refine ⟨arithmetic, harithmetic, fun hobject => ?_⟩
    -- Once the operator has the type of a number, it is no arithmetic of type `object` any more.
    have hnumber : ∀ number : Ty, number.isNumeric = true →
        (arithmetic && (face.withType (some number)).type?.join.any Ty.isObject) = false := by
      intro number hnumeric
      rw [(withType_binary hshape (some number)).2]
      simp [Ty.isObject_of_isNumeric hnumeric]
    rw [settledArithmetic, Name.isAmong_of_isIn harithmetic] at hobject ⊢
    split at hobject
    · rename_i hfirst
      rw [if_pos hfirst]
      split at hobject
      · rename_i hleft
        rw [hnumber _ (Option.filter_eq_some_iff.mp hleft).2] at hobject
        cases hobject
      · rename_i hright
        rw [hnumber _ (Option.filter_eq_some_iff.mp hright).2] at hobject
        cases hobject
      · rename_i hleft hright
        rw [← kidType_eq_join, ← kidType_eq_join]
        exact ⟨hknown hfirst, hleft, hright⟩
    · rename_i hfirst
      exact absurd hobject hfirst

theorem typesKnown_changeRole_cast {target : Ty} (h : TypesKnown (mapKids Term.face kids) roles) :
    TypesKnown (mapKids Term.face (changeRole role (.cast target) kids)) roles := by
  intro other hother
  obtain ⟨type, htype⟩ := h other hother
  by_cases hrole : other = role
  · subst hrole
    obtain ⟨term, hkid, _⟩ := exists_one_of_typeIn? htype
    rw [changeRole_of_one hkid, typeIn?, kidsAt_mapKids, kidsAt_setKids_one hkid, if_pos rfl]
    exact ⟨some target, rfl⟩
  · exact ⟨type, by rwa [typeIn?_changeRole_ne hrole]⟩

theorem settlesInto_equality : SettlesInto settledEquality EqualityNeeds EqualityRests := by
  intro op type face kids hshape hneeds hamong
  cases hassign : op.is "=" with
  | true =>
    rw [Name.eq_of_is hassign] at hamong
    exact absurd hamong (by decide)
  | false =>
    have hknown := hneeds hassign hamong
    constructor
    · rcases onlyCasts_settledEquality.kids op face kids with hkids | ⟨role, target, hkids⟩
      · rwa [hkids]
      · rw [hkids]
        exact typesKnown_changeRole_cast hknown
    · rw [← kidType_eq_join, ← kidType_eq_join]
      exact enumMismatch_settledEquality hamong

/-! ## Nothing to do -/

theorem convert_quiet (h : Met conversion declared (t.node c).face) :
    Quiet (convert conversion c declared) t := by
  obtain ⟨source, hsource, hneeded⟩ := h
  refine Answers.bind (Answers.typeAt hsource) ?_
  cases declared with
  | none => exact Answers.pure ()
  | some type =>
    simp only [hneeded type rfl]
    exact Answers.pure ()

theorem convertIn_quiet (h : MetIn conversion declared (t.kidFaces id) role) :
    Quiet (Pass.child id role >>= fun c => convert conversion c declared) t := by
  obtain ⟨face, hface, hmet⟩ := h
  rw [one?_kidFaces, Option.map_eq_some_iff] at hface
  obtain ⟨c, honly, rfl⟩ := hface
  exact Answers.bind (Answers.child honly) (convert_quiet hmet)

theorem convertTo_quiet (h : Meets conversion (t.kidFaces id) giver role) :
    Quiet (Pass.typeIn id giver >>= fun declared =>
      Pass.child id role >>= fun c => convert conversion c declared) t := by
  obtain ⟨declared, hdeclared, hmet⟩ := h
  exact Answers.bind (Answers.typeIn_kidFaces hdeclared) (convertIn_quiet hmet)

theorem convertInitializer_quiet (h : InitializerMet conversion (t.kidFaces id)) :
    Quiet (convertInitializer conversion id) t := by
  refine Answers.read ?_
  split
  · rename_i hcondition
    rw [Bool.and_eq_true, Bool.not_eq_true', Bool.not_eq_true'] at hcondition
    rw [InitializerMet, isEmpty_kidFaces, isEmpty_kidFaces] at h
    exact convertTo_quiet (h hcondition.1 hcondition.2)
  · exact Answers.pure ()

theorem convertArguments_quiet (h : ArgumentsMet conversion (t.kidFaces id)) :
    Quiet (convertArguments conversion id) t := by
  refine Answers.read ?_
  split
  · exact Answers.pure ()
  · rename_i callee hcallee
    rw [binding_eq] at hcallee
    refine quiet_forM ?_
    rintro ⟨argument, parameter⟩ hitem
    have hmet := h callee hcallee ((t.node argument).face, parameter)
    rw [toList_kidFaces, zip_map_left] at hmet
    have hmet := hmet (mem_map.mpr ⟨(argument, parameter), hitem, rfl⟩)
    show Quiet (if !parameter.byRef then convert conversion argument parameter.type else pure ()) t
    split
    · rename_i hbyRef
      exact convert_quiet (hmet (by simpa using hbyRef))
    · exact Answers.pure ()

theorem convertReturn_quiet (h : ReturnMet conversion (t.demand id) (t.kidFaces id)) :
    Quiet (convertReturn conversion id) t := by
  refine Answers.read ?_
  split
  · rename_i hexpression
    rw [ReturnMet, isEmpty_kidFaces] at h
    split
    · exact Answers.pure ()
    · rename_i owner hancestor
      split
      · rename_i hmethod
        rw [Bool.and_eq_true, Bool.not_eq_true'] at hmethod
        have hdemand : t.demand id = some (typeIn? (t.kidFaces owner) .returnType) := by
          rw [Tree.demand, hancestor, Option.bind_some, if_pos hmethod.1, demandIn,
            isEmpty_kidFaces, hmethod.2]
          rfl
        obtain ⟨declared, hdeclared, hmet⟩ := h (by simpa using hexpression) _ hdemand
        exact Answers.bind (Answers.typeIn_kidFaces hdeclared) (convertIn_quiet hmet)
      · exact Answers.pure ()
  · exact Answers.pure ()

def QuietOperators (atRest : Name → Face → Kids Face → Prop)
    (atOperator : NodeId → Name → Pass Unit) : Prop :=
  ∀ t id op, atRest op (t.node id).face (t.kidFaces id) → Quiet (atOperator id op) t

theorem TypesKnown.only (h : TypesKnown (t.kidFaces id) roles) (role : Role)
    (hrole : role ∈ roles) :
    ∃ c type, t.only? id role = some c ∧ (t.node c).type? = some type ∧
      typeIn? (t.kidFaces id) role = some type := by
  obtain ⟨type, htype⟩ := h role hrole
  have hfound := htype
  rw [typeIn?_kidFaces, Option.bind_eq_some_iff] at hfound
  obtain ⟨c, honly, hc⟩ := hfound
  exact ⟨c, type, honly, hc, htype⟩

theorem settleArithmetic_quiet : QuietOperators ArithmeticRests settleArithmetic := by
  rintro t id op ⟨arithmetic, harithmetic, hrest⟩
  refine Answers.bind (Answers.ofExcept harithmetic) (Answers.read ?_)
  split
  · rename_i hobject
    obtain ⟨hknown, hnoLeft, hnoRight⟩ := hrest hobject
    obtain ⟨left, leftType, honlyLeft, hleftType, hleft⟩ := hknown.only .left (by simp)
    obtain ⟨right, rightType, honlyRight, hrightType, hright⟩ := hknown.only .right (by simp)
    refine Answers.bind (Answers.child honlyLeft) (Answers.bind (Answers.child honlyRight) ?_)
    refine Answers.bind (Answers.typeAt hleftType) (Answers.bind (Answers.typeAt hrightType) ?_)
    rw [hleft, Option.join_some] at hnoLeft
    rw [hright, Option.join_some] at hnoRight
    rw [hnoLeft, hnoRight]
    exact Answers.pure ()
  · exact Answers.pure ()

theorem settleEquality_quiet : QuietOperators EqualityRests settleEquality := by
  intro t id op hrest
  unfold settleEquality
  split
  · rename_i hamong
    obtain ⟨hknown, hmatch⟩ := hrest hamong
    obtain ⟨left, leftType, honlyLeft, hleftType, hleft⟩ := hknown.only .left (by simp)
    obtain ⟨right, rightType, honlyRight, hrightType, hright⟩ := hknown.only .right (by simp)
    refine Answers.bind (Answers.child honlyLeft) (Answers.bind (Answers.child honlyRight) ?_)
    refine Answers.bind (Answers.typeAt hleftType) (Answers.bind (Answers.typeAt hrightType) ?_)
    rw [hleft, hright, Option.join_some, Option.join_some] at hmatch
    rw [hmatch]
    exact Answers.pure ()
  · exact Answers.pure ()

theorem conversionRule_quiet (hoperators : QuietOperators atRest atOperator)
    (hcalm : Calm conversion atRest (t.demand id) (t.node id).face (t.kidFaces id))
    (hvisit : ∀ c ∈ t.children id, Quiet (visit c) t) :
      Quiet (conversionRule conversion atOperator visit id) t := by
  refine Answers.bind (quiet_descend hvisit) (Answers.read ?_)
  rw [Calm, show (t.node id).face.shape = t.shape id from rfl] at hcalm
  cases hshape : t.shape id with
  | binary op type =>
    rw [hshape] at hcalm
    have hoperator := hoperators t id op hcalm.2
    simp only
    split
    · rename_i hassign
      obtain ⟨declared, hdeclared, hmet⟩ := hcalm.1 hassign
      obtain ⟨face, hface, hmet⟩ := hmet
      rw [one?_kidFaces, Option.map_eq_some_iff] at hface
      obtain ⟨c, honly, rfl⟩ := hface
      exact Answers.bind (Answers.typeIn_kidFaces hdeclared)
        (Answers.bind (Answers.child honly) (Answers.bind (convert_quiet hmet) hoperator))
    · exact hoperator
  | declaration _ _ =>
    rw [hshape] at hcalm
    exact convertInitializer_quiet hcalm
  | field _ _ _ =>
    rw [hshape] at hcalm
    exact convertInitializer_quiet hcalm
  | invocation _ =>
    rw [hshape] at hcalm
    exact convertArguments_quiet hcalm
  | returnStatement =>
    rw [hshape] at hcalm
    exact convertReturn_quiet hcalm
  | _ => exact Answers.pure ()

theorem everywhere_settles (hself : Reflexive conversion) (honly : OnlyCasts settle)
    (hsettles : SettlesInto settle needs atRest) (hquiet : QuietOperators atRest atOperator)
    (hsettle : Settles known settle needs stable atOperator) (hground : Familiar known s.tree)
    (hsound : s.tree.Sound) (hterm : s.tree.Reads known term s.tree.root) :
    Yields (everywhere (conversionRule conversion atOperator)) s fun _ after =>
      s.tree.SparesRoot after.tree ∧
      (ReturnsStable stable term →
        Quiet (everywhere (conversionRule conversion atOperator)) after.tree) := by
  refine Yields.mono (everywhere_castsBy hsettle hground hsound hterm) ?_
  rintro _ after ⟨_, hspares, other, hcasts, hreads⟩
  refine ⟨hspares, fun hstable => ?_⟩
  have hafter := hspares.sound hsound
  obtain ⟨rfl, hknown⟩ := hcasts hstable
  have hrests : Rests conversion atRest _ none :=
    rests_casted hself honly hsettles hsettle hstable hknown
  refine everywhere_quiet (fun id => after.tree.Standing id ∧ ∃ term,
    after.tree.Reads known term id ∧
    Rests conversion atRest term (after.tree.demand id)) ?_ hafter.intact ⟨hafter.standing, _,
    hreads, by rwa [demand_root hafter.top]⟩
  rintro visit id ⟨hid, ⟨origin, face, kids⟩, hfound, hrest⟩ hvisit
  obtain ⟨hcalm, hkids⟩ := rests_node_iff.mp hrest
  have hface : (after.tree.node id).face = face := hfound.face_eq
  have hfaces : after.tree.kidFaces id = mapKids Term.face kids := hfound.kidFaces_eq
  refine conversionRule_quiet hquiet (by rw [hface, hfaces]; exact hcalm) fun c hc => ?_
  obtain ⟨kid, hkid, hread⟩ := hfound.child hc
  refine hvisit c hc ⟨hid.child hc, kid, hread, ?_⟩
  rw [demand_child hid hc, hface, hfaces]
  exact hkids kid hkid

theorem enumRule_settles (hsound : s.tree.Sound) : Settling (everywhere enumRule) s := by
  obtain ⟨term, hterm⟩ := Reads.exists_of_intact (fun _ => False) hsound.intact
  refine Yields.mono (everywhere_settles (fun type => Ty.enumMismatch_self (some type))
    onlyCasts_settledEquality settlesInto_equality settleEquality_quiet settles_equality
    ⟨hsound.tidy, fun _ h => h.elim⟩ hsound hterm) ?_
  exact fun _ _ ⟨hspares, hrest⟩ => ⟨hspares, hrest fun _ _ _ _ _ => trivial⟩

theorem valueRule_settles (hsound : s.tree.Sound) :
    Yields (everywhere valueRule) s fun _ after => s.tree.SparesRoot after.tree ∧
      ((∀ id type, s.tree.Beneath s.tree.root id → (s.tree.kind id).isMethod = true →
        s.tree.only? id .returnType = some type → s.tree.kind type ≠ .binary) →
          Quiet (everywhere valueRule) after.tree) := by
  obtain ⟨term, hterm⟩ := Reads.exists_of_intact (fun _ => False) hsound.intact
  refine Yields.mono (everywhere_settles Ty.needsCast_self onlyCasts_settledArithmetic
    settlesInto_arithmetic settleArithmetic_quiet settles_arithmetic ⟨hsound.tidy, fun _ h =>
      h.elim⟩ hsound hterm) ?_
  exact fun _ _ ⟨hspares, hrest⟩ =>
    ⟨hspares, fun hplain => hrest (returnsPlain_of_reads hterm hplain)⟩

end Casts

end UnitySharp
