import MoveCodec.Proofs.Assembly.Link
import MoveCodec.Types.Registry

/-!
# Laws of substitution

Where every parameter of a type has an argument, substitution is a map over the parameters, and
such maps obey the laws of a monad. Elsewhere it fails at the first parameter that has none.
-/
namespace MoveCodec

open List

namespace MoveType

variable {t u : MoveType} {ts args : List MoveType} {id : DefId} {i j : UInt16}
  {f g : UInt16 → MoveType}

/-! ## Parameters of a type -/

/-- Every parameter that occurs in the type is below `arity`. -/
def ParamsBelow (arity : Int) (t : MoveType) : Prop :=
  ∀ i : UInt16, .param i ∈ t.parts → (i.toNat : Int) < arity

theorem partsAll_eq (ts : List MoveType) : partsAll ts = ts.flatMap parts := by
  induction ts with
  | nil => rfl
  | cons t ts ih => rw [partsAll, ih, flatMap_cons]

theorem unboundParam?_eq_none_iff {arity : Int} :
    t.unboundParam? arity = none ↔ t.ParamsBelow arity := by
  rw [unboundParam?, findSome?_eq_none_iff]
  constructor
  · intro h i hi
    simpa using h _ hi
  · intro h p hp
    cases p with
    | param i => simpa using h i hp
    | _ => rfl

theorem isConcrete_iff : t.isConcrete = true ↔ ∀ i, .param i ∉ t.parts := by
  rw [isConcrete, all_eq_true]
  constructor
  · intro h i hi
    cases h _ hi
  · intro h p hp
    cases p with
    | param i => exact absurd hp (h i)
    | _ => rfl

@[simp] theorem isConcrete_vector (t : MoveType) : (vector t).isConcrete = t.isConcrete := by
  simp [isConcrete, parts, isParam]

@[simp] theorem isConcrete_ref (m : Bool) (t : MoveType) :
    (ref m t).isConcrete = t.isConcrete := by
  simp [isConcrete, parts, isParam]

theorem isConcrete_struct :
    (struct id args).isConcrete = true ↔ ∀ t ∈ args, t.isConcrete = true := by
  simp only [isConcrete_iff, parts, mem_cons, partsAll_eq, mem_flatMap]
  grind

/-! ## Maps over the parameters -/

mutual

/-- The type with every parameter replaced. -/
def mapParams (f : UInt16 → MoveType) : MoveType → MoveType
  | .param i => f i
  | .vector e => .vector (mapParams f e)
  | .ref m t => .ref m (mapParams f t)
  | .struct id ts => .struct id (mapParamsAll f ts)
  | .enum id ts => .enum id (mapParamsAll f ts)
  | t => t

def mapParamsAll (f : UInt16 → MoveType) : List MoveType → List MoveType
  | [] => []
  | t :: ts => mapParams f t :: mapParamsAll f ts

end

@[simp] theorem mapParamsAll_eq (f : UInt16 → MoveType) (ts : List MoveType) :
    mapParamsAll f ts = ts.map (mapParams f) := by
  induction ts with
  | nil => rfl
  | cons t ts ih => rw [mapParamsAll, ih, map_cons]

theorem mapParams_congr (h : ∀ i, .param i ∈ t.parts → f i = g i) :
    t.mapParams f = t.mapParams g := by
  induction t using rec_args with
  | struct id ts ih | enum id ts ih =>
    simp only [mapParams, mapParamsAll_eq]
    refine congrArg _ (map_congr_left fun t ht => ih t ht fun i hi => h i ?_)
    simpa [parts, partsAll_eq] using ⟨t, ht, hi⟩
  | vector e ih | ref _ e ih => rw [mapParams, mapParams, ih fun i hi => h i (by simp [parts, hi])]
  | param i => exact h i (by simp [parts])
  | _ => rfl

@[simp] theorem mapParams_param (t : MoveType) : t.mapParams .param = t := by
  induction t using rec_args with
  | struct id ts ih | enum id ts ih =>
    rw [mapParams, mapParamsAll_eq, map_congr_left ih, map_id']
  | vector e ih | ref _ e ih => rw [mapParams, ih]
  | _ => rfl

theorem mapParams_mapParams (t : MoveType) :
    (t.mapParams f).mapParams g = t.mapParams fun i => (f i).mapParams g := by
  induction t using rec_args with
  | struct id ts ih | enum id ts ih =>
    simp only [mapParams, mapParamsAll_eq, map_map]
    exact congrArg _ (map_congr_left ih)
  | vector e ih | ref _ e ih => simp only [mapParams, ih]
  | _ => rfl

/-- A parameter is replaced by the components of what it is mapped to. -/
theorem parts_mapParams (f : UInt16 → MoveType) (t : MoveType) :
    (t.mapParams f).parts = t.parts.flatMap fun
      | .param i => (f i).parts
      | p => [p.mapParams f] := by
  induction t using rec_args with
  | struct id ts ih | enum id ts ih =>
    simp only [mapParams, mapParamsAll_eq, parts, partsAll_eq, flatMap_cons, flatMap_map,
      flatMap_assoc, singleton_append]
    exact congrArg _ (flatMap_congr ih)
  | vector e ih | ref _ e ih => simp [mapParams, parts, ih]
  | param i => simp [mapParams, parts]
  | _ => rfl

theorem param_mem_mapParams :
    .param j ∈ (t.mapParams f).parts ↔ ∃ i, .param i ∈ t.parts ∧ .param j ∈ (f i).parts := by
  rw [parts_mapParams, mem_flatMap]
  constructor
  · rintro ⟨p, hp, hj⟩
    cases p with
    | param i => exact ⟨i, hp, hj⟩
    | _ => cases mem_singleton.1 hj
  · rintro ⟨i, hi, hj⟩
    exact ⟨_, hi, hj⟩

theorem mapParams_of_isConcrete (h : t.isConcrete = true) : t.mapParams f = t := by
  rw [mapParams_congr fun i hi => absurd hi (isConcrete_iff.1 h i), mapParams_param]

/-! ## Substitution -/

/-- The argument for a parameter; a parameter without one stands for itself. -/
def argument (args : List MoveType) (i : UInt16) : MoveType := (args[i.toNat]?).getD (.param i)

theorem substituteAll_eq (h : ∀ t ∈ ts, t.substitute args =
      (t.unboundParam? args.length).elim (.ok (t.mapParams (argument args)))
        fun i => .error (.outOfBounds .types [] i.toNat args.length)) :
    substituteAll args ts = ((partsAll ts).findSome? fun
      | .param i => if (args.length : Int) ≤ i.toNat then some i else none
      | _ => none).elim (.ok (ts.map (mapParams (argument args))))
        fun i => .error (.outOfBounds .types [] i.toNat args.length) := by
  induction ts with
  | nil => rfl
  | cons t ts ih =>
    obtain ⟨ht, hts⟩ := forall_mem_cons.1 h
    rw [substituteAll, ht, ih hts, partsAll, findSome?_append, unboundParam?]
    cases t.parts.findSome? _ with
    | some i => rfl
    | none =>
      rw [Option.none_or]
      cases (partsAll ts).findSome? _ <;> rfl

theorem substitute_eq (args : List MoveType) (t : MoveType) : t.substitute args =
    (t.unboundParam? args.length).elim (.ok (t.mapParams (argument args)))
      fun i => .error (.outOfBounds .types [] i.toNat args.length) := by
  induction t using rec_args with
  | struct id ts ih | enum id ts ih =>
    rw [substitute, substituteAll_eq ih, unboundParam?, parts, findSome?_cons, mapParams,
      mapParamsAll_eq]
    cases (partsAll ts).findSome? _ <;> rfl
  | vector e ih | ref _ e ih =>
    rw [substitute, ih, unboundParam?, unboundParam?, parts, findSome?_cons, mapParams]
    cases e.parts.findSome? _ <;> rfl
  | param i =>
    rw [substitute]
    by_cases hi : i.toNat < args.length
    · simp [unboundParam?, parts, mapParams, argument, hi]
    · simp [unboundParam?, parts, Nat.le_of_not_lt hi]
  | _ => rfl

theorem substitute_eq_ok : t.substitute args = .ok u ↔
    t.ParamsBelow args.length ∧ u = t.mapParams (argument args) := by
  rw [substitute_eq, ← unboundParam?_eq_none_iff]
  cases t.unboundParam? args.length with
  | none => simp [eq_comm]
  | some i => simp

theorem substitute_eq_error {e : Error} : t.substitute args = .error e ↔
    ∃ i, t.unboundParam? args.length = some i ∧
      e = .outOfBounds .types [] i.toNat args.length := by
  rw [substitute_eq]
  cases t.unboundParam? args.length <;> simp [eq_comm]

theorem substitute_of_isConcrete (h : t.isConcrete = true) (args : List MoveType) :
    t.substitute args = .ok t :=
  substitute_eq_ok.2 ⟨fun i hi => absurd hi (isConcrete_iff.1 h i), (mapParams_of_isConcrete h).symm⟩

/-- Concrete arguments leave no parameter. -/
theorem isConcrete_of_substitute (h : t.substitute args = .ok u)
    (hargs : ∀ i, .param i ∈ t.parts → (argument args i).isConcrete = true) :
    u.isConcrete = true := by
  obtain ⟨-, rfl⟩ := substitute_eq_ok.1 h
  refine isConcrete_iff.2 fun j hj => ?_
  obtain ⟨i, hi, hj⟩ := param_mem_mapParams.1 hj
  exact isConcrete_iff.1 (hargs i hi) j hj

/-- A map that substitutes in what replaces the parameters substitutes in the whole. -/
theorem substitute_mapParams (h : ∀ i, .param i ∈ t.parts → (f i).substitute args = .ok (g i)) :
    (t.mapParams f).substitute args = .ok (t.mapParams g) := by
  refine substitute_eq_ok.2 ⟨fun j hj => ?_, ?_⟩
  · obtain ⟨i, hi, hj⟩ := param_mem_mapParams.1 hj
    exact (substitute_eq_ok.1 (h i hi)).1 j hj
  · rw [mapParams_mapParams]
    exact mapParams_congr fun i hi => (substitute_eq_ok.1 (h i hi)).2

/-- Each of the types substitutes to its partner. -/
def SubstitutesTo (args : List MoveType) : List MoveType → List MoveType → Prop :=
  List.Forall₂ fun t u => t.substitute args = .ok u

theorem SubstitutesTo.argument {as as' : List MoveType} (h : SubstitutesTo args as as')
    (hi : i.toNat < as.length) : (argument as i).substitute args = .ok (argument as' i) := by
  have hi' : i.toNat < as'.length := h.length_eq ▸ hi
  simpa [MoveType.argument, hi, hi'] using h.get hi hi'

end MoveType

/-! ## Fields of an instantiated definition -/

def Field.mapParams (f : UInt16 → MoveType) (q : Field) : Field :=
  { q with type := q.type.mapParams f }

/-- The other field is this one after substitution in its type. -/
def Field.SubstitutesTo (args : List MoveType) (q p : Field) : Prop :=
  p.name = q.name ∧ q.type.substitute args = .ok p.type

theorem Field.SubstitutesTo.rightUnique (args : List MoveType) :
    Relator.RightUnique (Field.SubstitutesTo args) := by
  rintro q ⟨_, t⟩ ⟨_, u⟩ ⟨rfl, ht⟩ ⟨rfl, hu⟩
  exact congrArg _ (Except.ok.inj (ht.symm.trans hu))

theorem Registry.instantiate_eq_ok {d : StructDef} {args : List MoveType} {fields : List Field} :
    instantiate d args = .ok fields ↔
      (args = [] ∨ ∀ q ∈ d.fields, q.type.ParamsBelow args.length) ∧
        fields = d.fields.map (·.mapParams (MoveType.argument args)) := by
  unfold instantiate
  split
  · rename_i hempty
    obtain rfl := List.isEmpty_iff.1 hempty
    have hsame : d.fields.map (·.mapParams (MoveType.argument [])) = d.fields := by
      refine (map_congr_left fun q _ => ?_).trans (map_id _)
      exact congrArg (Field.mk q.name) (MoveType.mapParams_param q.type)
    simp [hsame, eq_comm]
  · rename_i hne
    rw [or_iff_right (by simpa using hne), ← Assembly.forall₂_and_eq, Assembly.mapM_eq_ok]
    refine iff_of_eq (congrArg (List.Forall₂ · _ _) (funext₂ fun q p => propext ?_))
    rw [← MoveType.unboundParam?_eq_none_iff, MoveType.substitute_eq]
    cases q.type.unboundParam? args.length with
    | none =>
      simp [within, Except.mapError, bind, Except.bind, pure, Except.pure, Field.mapParams, eq_comm]
    | some i => exact iff_of_false nofun nofun

end MoveCodec
