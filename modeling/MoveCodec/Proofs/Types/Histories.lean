import MoveCodec.Proofs.Types.Concrete
import MoveCodec.Types.Framework

/-!
# Histories of a registry

A registry is filled by calls that add a definition, register the framework or freeze it, in any order.
Whatever the calls were, its definitions are well-formed, what was accepted stays as it is, and the
fields of every concrete struct type are concrete and lie in its record one after another.
-/
namespace MoveCodec

open List

variable {t : MoveType} {args : List MoveType} {d d' : StructDef} {claim : Nat} {id : DefId}

namespace MoveType

theorem stackSize_pos {n : UInt32} (h : t.stackSize = .ok n) : 0 < n.toNat := by
  unfold stackSize at h
  split at h <;> cases h <;> decide

end MoveType

/-! ## Well-formed definitions -/

/-- A struct as a registry holds it. -/
structure StructDef.Sound (d : StructDef) : Prop where
  tag_eq : d.tag = NativeTag.reserved d.id.home d.name
  bytesLen_range : ∀ n, d.tag = .bytes n → 1 ≤ n ∧ n ≤ 32
  params_below : ∀ f ∈ d.fields, f.type.ParamsBelow d.arity
  topics : d.role = .event → 0 ≤ d.indexed ∧ d.indexed ≤ min 3 (d.fields.length : Int)

/-- An enum as a registry holds it. -/
structure EnumDef.Sound (d : EnumDef) : Prop where
  variants_ne : d.variants ≠ []
  isSimple_iff : d.isSimple = true ↔ ∀ v ∈ d.variants, v.fields = []
  params_below : ∀ v ∈ d.variants, ∀ f ∈ v.fields, f.type.ParamsBelow d.arity

theorem EnumDef.isSimple_iff (d : EnumDef) :
    d.isSimple = true ↔ ∀ v ∈ d.variants, v.fields = [] := by
  simp [isSimple]

namespace Registry

/-- The definitions of a registry are well-formed, and each table has one for an index. -/
structure Sound (r : Registry) : Prop where
  structs : ∀ d ∈ r.structs, d.Sound
  enums : ∀ d ∈ r.enums, d.Sound
  structs_nodup : (r.structs.map (·.id)).Nodup
  enums_nodup : (r.enums.map (·.id)).Nodup

variable {r r' : Registry}

theorem Admits.sound (h : r.Admits d claim) :
    StructDef.Sound { d with tag := NativeTag.reserved d.id.home d.name } where
  tag_eq := rfl
  bytesLen_range _ hn := NativeTag.bytes_range hn
  params_below f hf := paramsBelow_of_checkFields h.bound f hf
  topics hevent := by
    obtain ⟨hlo, hmax, hlen⟩ := h.topics hevent
    exact ⟨hlo, le_min hmax hlen⟩

theorem AdmitsEnum.sound {d : EnumDef} (h : r.AdmitsEnum d) : d.Sound where
  variants_ne := h.variants_ne
  isSimple_iff := d.isSimple_iff
  params_below v hv f hf := paramsBelow_of_checkFields (h.bound v hv) f hf

theorem nodup_map_concat {α : Type} {f : α → DefId} {xs : List α} {a : α}
    (h : (xs.map f).Nodup) (hfresh : xs.find? (f · == f a) = none) : ((xs ++ [a]).map f).Nodup := by
  rw [map_append, nodup_append_comm, map_singleton, singleton_append, nodup_cons]
  refine ⟨fun hmem => ?_, h⟩
  obtain ⟨x, hx, hid⟩ := mem_map.1 hmem
  exact find?_eq_none.1 hfresh x hx (by simpa using hid)

theorem Sound.addStruct (h : r.Sound) (hadd : r.addStruct d claim = .ok (d', r')) : r'.Sound := by
  obtain ⟨hadmits, rfl, rfl⟩ := addStruct_eq_ok.1 hadd
  exact { h with
    structs := forall_mem_append.2 ⟨h.structs, forall_mem_singleton.2 hadmits.sound⟩
    structs_nodup := nodup_map_concat h.structs_nodup hadmits.fresh }

theorem Sound.addEnum {d : EnumDef} (h : r.Sound) (hadd : r.addEnum d = .ok r') : r'.Sound := by
  obtain ⟨hadmits, rfl⟩ := addEnum_eq_ok.1 hadd
  exact { h with
    enums := forall_mem_append.2 ⟨h.enums, forall_mem_singleton.2 hadmits.sound⟩
    enums_nodup := nodup_map_concat h.enums_nodup hadmits.fresh }

theorem Made.sound (h : r.Made) : r.Sound := by
  induction h with
  | empty => exact ⟨nofun, nofun, nodup_nil, nodup_nil⟩
  | addStruct _ hadd ih => exact ih.addStruct hadd
  | addEnum _ hadd ih => exact ih.addEnum hadd
  | freeze _ ih => exact ⟨ih.structs, ih.enums, ih.structs_nodup, ih.enums_nodup⟩

/-! ## Slots of a record -/

/-- Blocks of these sizes lie one after another from 0 on, as far as `size`. None reaches into another as
long as they fit together into an address space of 32 bits. -/
structure Tiled (sizes offsets : List UInt32) (size : UInt32) : Prop where
  length_eq : offsets.length = sizes.length
  offset_eq : ∀ i a, offsets[i]? = some a → a = (sizes.take i).sum
  size_eq : size = sizes.sum
  apart : (sizes.map UInt32.toNat).sum ≤ UInt32.size →
    (offsets.zip sizes).Pairwise fun x y => x.1.toNat + x.2.toNat ≤ y.1.toNat

theorem placeFrom_snd (start : UInt32) (ns : List UInt32) :
    (placeFrom start ns).2 = start + ns.sum := by
  induction ns generalizing start with
  | nil => simp [placeFrom]
  | cons n ns ih => simp [placeFrom, ih, UInt32.add_assoc]

theorem getElem?_placeFrom {start : UInt32} {ns : List UInt32} {i : Nat} {a : UInt32}
    (h : (placeFrom start ns).1[i]? = some a) : a = start + (ns.take i).sum := by
  induction ns generalizing start i with
  | nil => simp [placeFrom] at h
  | cons n ns ih =>
    cases i with
    | zero => simpa [placeFrom] using h.symm
    | succ i =>
      rw [placeFrom, getElem?_cons_succ] at h
      rw [ih h, take_succ_cons, sum_cons, UInt32.add_assoc]

/-- Blocks that are not empty and do not reach around the end of the address space. -/
theorem pairwise_placeFrom {start : UInt32} {ns : List UInt32} (hpos : ∀ n ∈ ns, 0 < n.toNat)
    (h : start.toNat + (ns.map UInt32.toNat).sum ≤ UInt32.size) :
    ((placeFrom start ns).1.zip ns).Pairwise (fun x y => x.1.toNat + x.2.toNat ≤ y.1.toNat) ∧
      ∀ a ∈ (placeFrom start ns).1, start.toNat ≤ a.toNat := by
  induction ns generalizing start with
  | nil => simp [placeFrom]
  | cons n ns ih =>
    rw [map_cons, sum_cons] at h
    cases hns : ns with
    | nil => simp [placeFrom]
    | cons m ms =>
      -- A block behind the first one shows that the first one ends below the end of the space.
      have hm : 0 < m.toNat := hpos m (by simp [hns])
      have hsum : m.toNat ≤ (ns.map UInt32.toNat).sum := by simp [hns]
      have hspace : UInt32.size = 4294967296 := rfl
      have hnext : (start + n).toNat = start.toNat + n.toNat := by
        rw [UInt32.toNat_add, Nat.mod_eq_of_lt (by omega)]
      obtain ⟨hpairs, hbelow⟩ := @ih (start + n) (fun x hx => hpos x (by simp [hx])) (by omega)
      rw [hnext] at hbelow
      rw [← hns, placeFrom]
      refine ⟨pairwise_cons.2 ⟨fun x hx => ?_, hpairs⟩, fun a ha => ?_⟩
      · exact hbelow x.1 (of_mem_zip hx).1
      · rcases mem_cons.1 ha with rfl | ha
        · exact le_rfl
        · exact le_trans (by omega) (hbelow a ha)

theorem tiled_placeFrom {sizes : List UInt32} (hpos : ∀ n ∈ sizes, 0 < n.toNat) :
    Tiled sizes (placeFrom 0 sizes).1 (placeFrom 0 sizes).2 where
  length_eq := length_placeFrom 0 sizes
  offset_eq i a h := by rw [getElem?_placeFrom h, UInt32.zero_add]
  size_eq := by rw [placeFrom_snd, UInt32.zero_add]
  apart h := (pairwise_placeFrom hpos (by simpa using h)).1

theorem exists_sizes {fs : List Field} (h : ∀ f ∈ fs, f.type.isConcrete = true) :
    ∃ sizes, (fs.mapM fun f => within f.name f.type.stackSize) = .ok sizes ∧
      List.Forall₂ (fun f n => f.type.stackSize = .ok n) fs sizes ∧ ∀ n ∈ sizes, 0 < n.toNat := by
  induction fs with
  | nil => exact ⟨[], rfl, .nil, nofun⟩
  | cons f fs ih =>
    obtain ⟨n, hn⟩ := MoveType.exists_stackSize (h f (by simp))
    obtain ⟨sizes, hsizes, hall, hpos⟩ := ih fun f hf => h f (by simp [hf])
    refine ⟨n :: sizes, ?_, .cons hn hall, forall_mem_cons.2 ⟨MoveType.stackSize_pos hn, hpos⟩⟩
    rw [mapM_cons, hn, hsizes]
    rfl

/-- A struct type of the definition `d` has concrete fields, each with a slot in its record. -/
def Laid (r : Registry) (id : DefId) (args : List MoveType) (d : StructDef) : Prop :=
  ∃ fs sizes offsets size, r.fields id args = .ok fs ∧
    fs.map (·.name) = d.fields.map (·.name) ∧ (∀ f ∈ fs, f.type.isConcrete = true) ∧
    List.Forall₂ (fun f n => f.type.stackSize = .ok n) fs sizes ∧
    r.fieldPlaces id args = .ok (offsets, size) ∧ Tiled sizes offsets size

theorem Made.laid (hr : r.Made)
    (hd : r.findStruct? id = some d) (hlength : (args.length : Int) = d.arity)
    (hargs : ∀ a ∈ args, a.isConcrete = true) : r.Laid id args d := by
  have hstruct := structOf_eq_ok.2 ⟨hd, hlength⟩
  have hfields := hr.fields_eq hstruct
  have hconcrete := hr.isConcrete_of_instantiate hstruct hargs (hr.instantiate_eq hstruct)
  obtain ⟨sizes, hsizes, hall, hpos⟩ := exists_sizes hconcrete
  refine ⟨_, sizes, _, _, hfields, by rw [map_map]; rfl, hconcrete, hall, ?_,
    tiled_placeFrom hpos⟩
  rw [fieldPlaces, hfields]
  exact congrArg (placeFrom 0 <$> ·) hsizes

/-! ## Histories -/

/-- A call on a registry. -/
inductive Edit where
  | struct (d : StructDef) (claim : Nat)
  | enum (d : EnumDef)
  | framework
  | freeze

/-- The outcome of a call and the registry after it. -/
def Edit.apply (r : Registry) : Edit → Except Error Unit × Registry
  | .struct d claim =>
    match r.addStruct d claim with
    | .ok (_, r') => (.ok (), r')
    | .error e => (.error e, r)
  | .enum d =>
    match r.addEnum d with
    | .ok r' => (.ok (), r')
    | .error e => (.error e, r)
  | .framework => Framework.register r
  | .freeze => (.ok (), r.freeze)

/-- The registry after calls in a row. -/
def edited (r : Registry) (edits : List Edit) : Registry := edits.foldl (fun r e => (e.apply r).2) r

/-- The registry `r'` comes after `r`: what was in a table is still in front, and a frozen registry is as
it was. -/
structure Keeps (r r' : Registry) : Prop where
  structs : r.structs <+: r'.structs
  enums : r.enums <+: r'.enums
  frozen : r.frozen = true → r' = r

section

variable {P : Registry → Prop}
  (struct : ∀ {r r' : Registry} {d d' : StructDef} {claim : Nat}, P r →
    r.addStruct d claim = .ok (d', r') → P r')

include struct

theorem register_induction (h : P r) : P (Framework.register r).2 := by
  rw [Framework.register]
  refine List.foldlRecOn (motive := fun x : Except Error Unit × Registry => P x.2) _ _ h fun x hx d _ => ?_
  obtain ⟨outcome, r⟩ := x
  cases outcome with
  | error e => exact hx
  | ok =>
    cases hadd : r.addStruct d with
    | error e => simpa only [hadd] using hx
    | ok y => simpa only [hadd] using struct hx hadd

variable (enum : ∀ {r r' : Registry} {d : EnumDef}, P r → r.addEnum d = .ok r' → P r')
  (freeze : ∀ {r : Registry}, P r → P r.freeze)

include enum freeze

/-- What successful additions and freezing preserve is preserved by every call. -/
theorem Edit.apply_induction (h : P r) (e : Edit) : P (e.apply r).2 := by
  cases e with
  | struct d claim =>
    rw [apply]
    split
    · exact struct h ‹_›
    · exact h
  | enum d =>
    rw [apply]
    split
    · exact enum h ‹_›
    · exact h
  | framework => exact register_induction struct h
  | freeze => exact freeze h

theorem edited_induction (h : P r) (edits : List Edit) : P (r.edited edits) := by
  induction edits generalizing r with
  | nil => exact h
  | cons e edits ih => exact ih (Edit.apply_induction struct enum freeze h e)

end

theorem made_edited (hr : r.Made) (edits : List Edit) : (r.edited edits).Made :=
  edited_induction .addStruct .addEnum .freeze hr edits

theorem keeps_edited (r : Registry) (edits : List Edit) : r.Keeps (r.edited edits) := by
  refine edited_induction (P := r.Keeps) ?_ ?_ ?_ ⟨prefix_rfl, prefix_rfl, fun _ => rfl⟩
    edits
  · intro r₁ r₂ d d' claim h hadd
    obtain ⟨hadmits, -, rfl⟩ := addStruct_eq_ok.1 hadd
    refine ⟨h.structs.trans (prefix_append _ _), h.enums, fun hfrozen => ?_⟩
    have hthawed := hadmits.thawed
    rw [h.frozen hfrozen, hfrozen] at hthawed
    cases hthawed
  · intro r₁ r₂ d h hadd
    obtain ⟨hadmits, rfl⟩ := addEnum_eq_ok.1 hadd
    refine ⟨h.structs, h.enums.trans (prefix_append _ _), fun hfrozen => ?_⟩
    have hthawed := hadmits.thawed
    rw [h.frozen hfrozen, hfrozen] at hthawed
    cases hthawed
  · intro r₁ h
    refine ⟨h.structs, h.enums, fun hfrozen => ?_⟩
    rw [h.frozen hfrozen, Registry.freeze, ← hfrozen]

theorem Keeps.findStruct? (h : r.Keeps r')
    (hd : r.findStruct? id = some d) : r'.findStruct? id = some d :=
  h.structs.find?_eq_some hd

theorem Keeps.findEnum? (h : r.Keeps r') {d : EnumDef}
    (hd : r.findEnum? id = some d) : r'.findEnum? id = some d :=
  h.enums.find?_eq_some hd

theorem findStruct?_of_addStruct (h : r.addStruct d claim = .ok (d', r')) :
    r'.findStruct? d.id = some { d with tag := NativeTag.reserved d.id.home d.name } := by
  obtain ⟨hadmits, rfl, rfl⟩ := addStruct_eq_ok.1 h
  have hfresh : r.structs.find? (·.id == d.id) = none := hadmits.fresh
  simp [Registry.findStruct?, find?_append, hfresh]

theorem findEnum?_of_addEnum {d : EnumDef} (h : r.addEnum d = .ok r') :
    r'.findEnum? d.id = some d := by
  obtain ⟨hadmits, rfl⟩ := addEnum_eq_ok.1 h
  have hfresh : r.enums.find? (·.id == d.id) = none := hadmits.fresh
  simp [Registry.findEnum?, find?_append, hfresh]

/-- After any calls on a new registry: a definition that is refused changes nothing, one that is accepted
is found under its index from then on, and freezing ends all change. The definitions are well-formed, and
the fields of a concrete struct type are concrete and have their slots one after another. -/
theorem edited_invariant (edits later : List Edit) :
    let r := Registry.edited {} edits
    (∀ d claim e, ((Edit.struct d claim).apply r).1 = .error e → ((Edit.struct d claim).apply r).2 = r) ∧
    (∀ d e, ((Edit.enum d).apply r).1 = .error e → ((Edit.enum d).apply r).2 = r) ∧
    (∀ d claim, ((Edit.struct d claim).apply r).1 = .ok () →
      (((Edit.struct d claim).apply r).2.edited later).findStruct? d.id =
        some { d with tag := NativeTag.reserved d.id.home d.name }) ∧
    (∀ d, ((Edit.enum d).apply r).1 = .ok () →
      (((Edit.enum d).apply r).2.edited later).findEnum? d.id = some d) ∧
    (∀ id d, r.findStruct? id = some d → (r.edited later).findStruct? id = some d) ∧
    (∀ id d, r.findEnum? id = some d → (r.edited later).findEnum? id = some d) ∧
    r.freeze.edited later = r.freeze ∧
    r.Sound ∧
    ∀ id args d, r.findStruct? id = some d → (args.length : Int) = d.arity →
      (MoveType.struct id args).isConcrete = true → r.Laid id args d := by
  intro r
  have hr : r.Made := made_edited .empty edits
  refine ⟨fun d claim e h => ?_, fun d e h => ?_, fun d claim h => ?_, fun d h => ?_, fun id d hd => ?_,
    fun id d hd => ?_, ?_, hr.sound, fun id args d hd hlength hconcrete => ?_⟩
  · rw [Edit.apply] at h ⊢
    split at h
    · cases h
    · rfl
  · rw [Edit.apply] at h ⊢
    split at h
    · cases h
    · rfl
  · rw [Edit.apply] at h ⊢
    split at h
    · exact (keeps_edited _ later).findStruct? (findStruct?_of_addStruct ‹_›)
    · cases h
  · rw [Edit.apply] at h ⊢
    split at h
    · exact (keeps_edited _ later).findEnum? (findEnum?_of_addEnum ‹_›)
    · cases h
  · exact (keeps_edited r later).findStruct? hd
  · exact (keeps_edited r later).findEnum? hd
  · exact (keeps_edited r.freeze later).frozen rfl
  · exact hr.laid hd hlength (MoveType.isConcrete_struct.1 hconcrete)

end Registry

end MoveCodec
