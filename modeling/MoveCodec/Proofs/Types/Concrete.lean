import MoveCodec.Proofs.Types.Registry

/-!
# Substitution in fields

A definition mentions only its own parameters, and each of them is replaced by an argument. So the
fields of a struct type without type parameters have none either, and substitution in the arguments
of a struct type is substitution in its fields.
-/
namespace MoveCodec

open List

variable {id : DefId} {args : List MoveType} {t : MoveType} {d : StructDef}

namespace Registry

variable {r : Registry}

theorem fields_of_addStruct {r' : Registry} {d' : StructDef} {claim : Nat}
    (h : r.addStruct d claim = .ok (d', r')) : checkFields d'.arity d'.name d'.fields = .ok () := by
  obtain ⟨hadmits, rfl, -⟩ := addStruct_eq_ok.1 h
  exact hadmits.bound

/-- Definitions mention only their own parameters. -/
theorem Made.checkFields_eq (h : r.Made) (hd : d ∈ r.structs) :
    checkFields d.arity d.name d.fields = .ok () := by
  induction h with
  | empty => cases hd
  | addStruct _ hadd ih =>
    rw [(structs_of_addStruct hadd).1, mem_append, mem_singleton] at hd
    rcases hd with hd | rfl
    · exact ih hd
    · exact fields_of_addStruct hadd
  | addEnum _ hadd ih => exact ih (structs_of_addEnum hadd ▸ hd)
  | freeze _ ih => exact ih hd

theorem paramsBelow_of_checkFields {arity : Int} {owner : String} {fields : List Field}
    (h : checkFields arity owner fields = .ok ()) : ∀ f ∈ fields, f.type.ParamsBelow arity := by
  induction fields with
  | nil => simp
  | cons f fs ih =>
    rw [checkFields, List.forM] at h
    obtain ⟨⟨⟩, hf, h⟩ := Assembly.bind_eq_ok h
    refine forall_mem_cons.2 ⟨?_, ih h⟩
    split at hf
    · cases hf
    · exact MoveType.unboundParam?_eq_none_iff.1 ‹_›

/-- Definitions mention only parameters that have an argument. -/
theorem Made.paramsBelow (hr : r.Made) (hd : r.structOf id args = .ok d) :
    ∀ f ∈ d.fields, f.type.ParamsBelow args.length := by
  rw [(structOf_eq_ok.1 hd).2]
  exact paramsBelow_of_checkFields (hr.checkFields_eq (Shape.mem_structs_of_structOf hd))

theorem Made.instantiate_eq (hr : r.Made) (hd : r.structOf id args = .ok d) :
    instantiate d args = .ok (d.fields.map (·.mapParams (MoveType.argument args))) :=
  instantiate_eq_ok.2 ⟨.inr (hr.paramsBelow hd), rfl⟩

theorem Made.fields_eq (hr : r.Made) (hd : r.structOf id args = .ok d) :
    r.fields id args = .ok (d.fields.map (·.mapParams (MoveType.argument args))) := by
  rw [fields, hd]
  exact hr.instantiate_eq hd

theorem Made.isConcrete_of_instantiate (hr : r.Made)
    {fs : List Field} (hd : r.structOf id args = .ok d)
    (hargs : ∀ a ∈ args, a.isConcrete = true) (hfs : instantiate d args = .ok fs) :
    ∀ f ∈ fs, f.type.isConcrete = true := by
  obtain ⟨-, rfl⟩ := instantiate_eq_ok.1 hfs
  refine forall_mem_map.2 fun q hq => ?_
  have hbelow := hr.paramsBelow hd q hq
  refine MoveType.isConcrete_of_substitute (MoveType.substitute_eq_ok.2 ⟨hbelow, rfl⟩) fun i hi => ?_
  have hlt := Int.ofNat_lt.1 (hbelow i hi)
  rw [MoveType.argument, getElem?_eq_getElem hlt]
  exact hargs _ (getElem_mem hlt)

/-- Substitution in the arguments of a struct type is substitution in its fields. -/
theorem Made.fields_substitute (hr : r.Made) {b args' : List MoveType}
    (hargs : MoveType.SubstitutesTo b args args') {fs' : List Field} :
    r.fields id args' = .ok fs' ↔
      ∃ fs, r.fields id args = .ok fs ∧ List.Forall₂ (Field.SubstitutesTo b) fs fs' := by
  have hlength : args'.length = args.length := hargs.length_eq.symm
  have hiff {d : StructDef} : r.structOf id args' = .ok d ↔ r.structOf id args = .ok d := by
    rw [structOf_eq_ok, structOf_eq_ok, hlength]
  have hstep {d : StructDef} (hd : r.structOf id args = .ok d) :
      List.Forall₂ (Field.SubstitutesTo b) (d.fields.map (·.mapParams (MoveType.argument args)))
        (d.fields.map (·.mapParams (MoveType.argument args'))) := by
    rw [forall₂_map_left_iff, forall₂_map_right_iff, forall₂_same]
    exact fun f hf => ⟨rfl, MoveType.substitute_mapParams fun i hi =>
      hargs.argument (Int.ofNat_lt.1 (hr.paramsBelow hd f hf i hi))⟩
  constructor
  · intro h
    obtain ⟨d, hd, -⟩ := Assembly.bind_eq_ok h
    obtain rfl := Except.ok.inj (h.symm.trans (hr.fields_eq hd))
    exact ⟨_, hr.fields_eq (hiff.1 hd), hstep (hiff.1 hd)⟩
  · rintro ⟨fs, h, hfs⟩
    obtain ⟨d, hd, -⟩ := Assembly.bind_eq_ok h
    obtain rfl := Except.ok.inj (h.symm.trans (hr.fields_eq hd))
    rw [hr.fields_eq (hiff.2 hd),
      Relator.RightUnique.forall₂ (Field.SubstitutesTo.rightUnique b) hfs (hstep hd)]

end Registry

namespace MoveType

/-- A concrete type has a place in a record. -/
theorem exists_stackSize (h : t.isConcrete = true) : ∃ n, t.stackSize = .ok n := by
  cases t with
  | int w => cases w <;> exact ⟨_, rfl⟩
  | param i => simp [isConcrete, parts, isParam] at h
  | _ => exact ⟨_, rfl⟩

/-! ## Laws of substitution -/

theorem exists_substitute_error {t : MoveType} {args : List MoveType} :
    (∃ e, t.substitute args = .error e) ↔ ∃ i, .param i ∈ t.parts ∧ args.length ≤ i.toNat := by
  simp only [substitute_eq_error]
  rw [← not_iff_not]
  trans t.ParamsBelow args.length
  · rw [← unboundParam?_eq_none_iff]
    cases t.unboundParam? args.length <;> simp
  · simp [ParamsBelow]

/-- Substitution fails at a parameter without an argument and nowhere else. With concrete arguments
it gives a concrete type, it leaves concrete types alone, and it composes, in types as in the fields
of struct types. -/
theorem substitute_laws (t : MoveType) (a b : List MoveType) :
    ((∃ e, t.substitute a = .error e) ↔ ∃ i, .param i ∈ t.parts ∧ a.length ≤ i.toNat) ∧
    (∀ e, t.substitute a = .error e → e.kind? = some .outOfBounds) ∧
    (∀ u, t.substitute a = .ok u →
      (∀ i x, .param i ∈ t.parts → a[i.toNat]? = some x → x.isConcrete = true) →
      u.isConcrete = true) ∧
    (t.isConcrete = true → t.substitute a = .ok t) ∧
    (∀ u a', t.substitute a = .ok u → SubstitutesTo b a a' →
      ∃ v, u.substitute b = .ok v ∧ t.substitute a' = .ok v) ∧
    ∀ (r : Registry) (id : DefId) (a' : List MoveType) (fs' : List Field), r.Made →
      SubstitutesTo b a a' → (r.fields id a' = .ok fs' ↔
        ∃ fs, r.fields id a = .ok fs ∧ List.Forall₂ (Field.SubstitutesTo b) fs fs') := by
  refine ⟨exists_substitute_error, fun e he => ?_, fun u hu hargs => ?_,
    fun h => substitute_of_isConcrete h a, fun u a' hu ha => ?_,
    fun r id a' fs' hr ha => hr.fields_substitute ha⟩
  · obtain ⟨i, -, rfl⟩ := substitute_eq_error.1 he
    rfl
  · refine isConcrete_of_substitute hu fun i hi => ?_
    have hlt := Int.ofNat_lt.1 ((substitute_eq_ok.1 hu).1 i hi)
    rw [argument, getElem?_eq_getElem hlt]
    exact hargs i _ hi (getElem?_eq_getElem hlt)
  · obtain ⟨hbelow, rfl⟩ := substitute_eq_ok.1 hu
    refine ⟨t.mapParams (argument a'), substitute_mapParams fun i hi => ?_, ?_⟩
    · exact ha.argument (Int.ofNat_lt.1 (hbelow i hi))
    · exact substitute_eq_ok.2 ⟨ha.length_eq ▸ hbelow, rfl⟩

/-- Vectors in vectors: `vector<T0>` under `[vector<T0>]` and then `[bool]`. -/
theorem substitute_laws_vector :
    (vector (param 0)).substitute [vector (param 0)] = .ok (vector (vector (param 0))) ∧
      (vector (param 0)).substitute [bool] = .ok (vector bool) ∧
      ∃ v, (vector (vector (param 0))).substitute [bool] = .ok v ∧
        (vector (param 0)).substitute [vector bool] = .ok v :=
  ⟨rfl, rfl, (substitute_laws (vector (param 0)) [vector (param 0)] [bool]).2.2.2.2.1 _ _ rfl
    (.cons rfl .nil)⟩

end MoveType

end MoveCodec
