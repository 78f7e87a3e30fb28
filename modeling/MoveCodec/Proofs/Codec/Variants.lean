import MoveCodec.Proofs.Codec.DecodedValues

/-!
# Which variants pass

The number of a variant is packed as a whole word, and unpacked from a word of type `uint8`. The
registry takes enums of any size, so the variants behind the first 256 are packed and then refused.
-/
namespace MoveCodec.Codec

open Assembly Machine Prelude Compute Bytes

variable {c : Context} {t : MoveType} {n i : Nat}

/-- Calls of the packer for the variant `i` write its number as a word. -/
def PacksVariant (m : Built c (pack c t)) (i : Fin n) : Prop :=
  ∀ (vm : Vm) (v : Value) (w base : UInt32) (bs : List Block),
    Form.Holds false vm.memory.byte (.enum n) v i bs → Placed vm w.toNat bs →
    ∃ k, ∀ fuel, k ≤ fuel → ∃ vm' : Vm,
      m.call fuel [v, .i32 w, .i32 base] vm.store = ⟨.ok [], vm'.store⟩ ∧
      vm.Becomes 0 (patch vm.memory.byte w.toNat (ofNatBE 32 i)) vm'

/-- Calls of the unpacker for a word with the number `i` end like this. -/
def UnpacksWord (m : Built c (unpack c t)) (i : Nat) (ends : Vm → Return → Prop) : Prop :=
  ∀ (vm : Vm) (r base : UInt32), vm.Sane → r.toNat + 32 ≤ vm.memory.size →
    wordAt vm.memory.byte r.toNat i →
    ∃ k, ∀ fuel, k ≤ fuel → ends vm (m.call fuel [.i32 r, .i32 base] vm.store)

def GivesVariant (i : Fin n) (vm : Vm) (r : Return) : Prop :=
  (∃ v vm', r = ⟨.ok [v], vm'.store⟩ ∧ Rebuilds (.enum n) i vm v vm') ∨
  ((∃ t, r.outcome = .error (.trap t)) ∧ vm.space < vm.top.toNat + 4)

/-- The call traps. -/
def Refuses (_ : Vm) (r : Return) : Prop := ∃ t, r.outcome = .error (.trap t)

/-- How many variants pass: their numbers are below 256 and below the number of variants, as far as
that fits into a register. -/
def passing (n : Nat) : Nat := min 256 (UInt32.ofNat n).toNat

theorem ofNatBE_inj {j : Nat} (h : ofNatBE 32 i = ofNatBE 32 j) (hi : i < UInt32.size)
    (hj : j < UInt32.size) : i = j := by
  have hsize : UInt32.size ≤ Nat.pow 256 32 := by decide
  have h := congrArg toNatBE h
  rwa [toNatBE_ofNatBE, toNatBE_ofNatBE, Nat.mod_eq_of_lt (hi.trans_le hsize),
    Nat.mod_eq_of_lt (hj.trans_le hsize)] at h

/-- The words of type `uint8` are those of the first 256 numbers. -/
theorem exists_byte_iff (hi : i < UInt32.size) :
    (∃ x : (Form.int .w8).Val, ofNatBE 32 i = Form.encode (.int .w8) x) ↔ i < 256 := by
  constructor
  · rintro ⟨x, hx⟩
    rw [Form.encode] at hx
    rw [ofNatBE_inj hx hi (x.isLt.trans (by decide))]
    exact x.isLt
  · intro h
    refine ⟨BitVec.ofNat 8 i, ?_⟩
    exact congrArg _ (Nat.mod_eq_of_lt h).symm

/-- A variant that does not pass is refused. -/
theorem trap_of_passing_le {vm : Vm} {r base : UInt32} (hs : vm.Sane)
    (hword : wordAt vm.memory.byte r.toNat i) (hi : i < UInt32.size) (hpass : passing n ≤ i) :
    ∃ t, (unpacking (.enum n) r base).run vm = .error (.trap t) := by
  cases hrun : (unpacking (.enum n) r base).run vm with
  | error e =>
    obtain ⟨t, rfl⟩ := (tame_unpacking (.enum n) r base rfl).trap_of_error hs le_rfl hrun
    exact ⟨t, rfl⟩
  | ok y =>
    rw [unpacking] at hrun
    obtain ⟨x, vm₁, hload, hrun⟩ := run_bind_eq_ok.mp hrun
    obtain ⟨_, vm₂, htrap, -⟩ := run_bind_eq_ok.mp hrun
    obtain ⟨-, hx, hlt, -⟩ := loadWord_eq_ok hs (by decide) hload
    obtain ⟨hvariant, -⟩ := trapWhen_eq_ok htrap
    have heq : i = x.toNat := ofNatBE_inj (hword.symm.trans hx) hi x.toNat_lt
    rw [decide_eq_false_iff_not, UInt32.le_iff_toNat_le] at hvariant
    rw [passing] at hpass
    omega

theorem shape_enum {r : Registry} {id : DefId} {args : List MoveType} {d : EnumDef}
    (hd : r.enumOf id args = .ok d) : r.shape (.enum id args) = .enum d args := by
  have htype := Shape.type_shape (r := r) (.enum id args)
  rw [Registry.shape, Shape.expand_eq] at htype ⊢
  rw [Shape.type_ofType_enum] at htype
  injection htype with _ hargs
  rw [Shape.ofType, hargs, hd]

section

variable (hc : c.registry.Made) (hform : HasForm c.registry t (.enum n))

include hc hform

theorem packsVariant (m : Built c (pack c t)) (i : Fin n) : PacksVariant m i := by
  intro vm v w base bs hx hp
  have hwide : v.wide = false := by
    obtain ⟨p, rest, rfl, -⟩ := hx
    rfl
  have hpacker := m.serves hc (makes_pack (fun _ h => h) t) _ hform
  obtain ⟨k, hk⟩ := m.call_eq (hpacker v w base hwide) vm
  have hfit : w.toNat + (ofNatBE 32 i).length ≤ vm.memory.size := by
    rw [length_ofNatBE]
    exact hp.le_top.trans hp.sane.top_le
  obtain ⟨vm', hwrite, hb⟩ := runs_write hp.sane hfit
  refine ⟨k, fun fuel hfuel => ⟨vm', (hk fuel hfuel).1 () vm' ?_, hb⟩⟩
  rw [packsInPlace_enum _ hx hp]
  exact hwrite

theorem gives_of_lt (m : Built c (unpack c t)) {i : Fin n} (hi : i < passing n) :
    UnpacksWord m i (GivesVariant i) := by
  intro vm r base hs hfit hword
  obtain ⟨-, hunpacker⟩ := m.serves hc (makes_unpack (fun _ h => h) t) _ hform
  obtain ⟨k, hk⟩ := m.call_eq (hunpacker r base) vm
  rw [passing, lt_min_iff] at hi
  have htries : Tries (unpacking (.enum n) r base) vm 4 (Rebuilds (.enum n) i vm) :=
    rebuilds_variant hs hi.1 hi.2 hfit hword
  refine ⟨k, fun fuel hfuel => htries.imp ?_ ?_⟩
  · rintro ⟨v, vm', hrun, -, -, hv⟩
    exact ⟨v, vm', (hk fuel hfuel).1 v vm' hrun, hv⟩
  · rintro ⟨⟨e, hrun⟩, hspace⟩
    exact ⟨⟨e, (hk fuel hfuel).2 _ hrun⟩, hspace⟩

theorem refuses_of_le (m : Built c (unpack c t)) (hlt : i < UInt32.size) (hi : passing n ≤ i) :
    UnpacksWord m i Refuses := by
  intro vm r base hs _ hword
  obtain ⟨-, hunpacker⟩ := m.serves hc (makes_unpack (fun _ h => h) t) _ hform
  obtain ⟨k, hk⟩ := m.call_eq (hunpacker r base) vm
  obtain ⟨e, hrun⟩ := trap_of_passing_le hs hword hlt hi
  exact ⟨k, fun fuel hfuel => ⟨e, (hk fuel hfuel).2 _ hrun⟩⟩

end

theorem variants_pass (hc : c.registry.Made) {id : DefId} {args : List MoveType} {d : EnumDef}
    (hd : c.registry.enumOf id args = .ok d) (hsimple : d.isSimple = true) :
    c.registry.canonicalName (.enum id args) = .ok "uint8" ∧
    ∀ i : Fin d.variants.length, i.val < UInt32.size →
      (∀ m : Built c (pack c (.enum id args)), PacksVariant m i) ∧
      ((∃ x : (Form.int .w8).Val, ofNatBE 32 i = Form.encode (.int .w8) x) ↔ i.val < 256) ∧
      ∀ m : Built c (unpack c (.enum id args)), UnpacksWord m i
        (if i < passing d.variants.length then GivesVariant i else Refuses) := by
  have hform : HasForm c.registry (.enum id args) (.enum d.variants.length) := .enum hd hsimple
  refine ⟨?_, fun i hlt => ⟨fun m => packsVariant hc hform m i, exists_byte_iff hlt, fun m => ?_⟩⟩
  · rw [Registry.canonicalName, shape_enum hd, Shape.canonicalName, if_pos hsimple]
  · split_ifs with hi
    · exact gives_of_lt hc hform m hi
    · exact refuses_of_le hc hform m hlt (Nat.le_of_not_lt hi)

/-- An enum with more variants than a byte can number. -/
def seat : EnumDef where
  id := ⟨⟨Vector.replicate 32 9, "hall"⟩, 0⟩
  name := "Seat"
  variants := (List.range 257).map fun i => ⟨"S" ++ toString i, []⟩

def hall : Context where
  registry := { enums := [seat] }

theorem addEnum_seat : Registry.addEnum {} seat = .ok hall.registry := by
  have hfields : seat.variants.forM (fun v =>
      Registry.checkFields seat.arity (seat.name ++ "::" ++ v.name) v.fields) = .ok () := by
    rw [seat]
    induction List.range 257 with
    | nil => rfl
    | cons i is ih => exact ih
  rw [Registry.addEnum, hfields]
  rfl

theorem length_seat : seat.variants.length = 257 := by simp [seat]

theorem isSimple_seat : seat.isSimple = true := by simp [EnumDef.isSimple, seat]

theorem enumOf_seat : hall.registry.enumOf seat.id [] = .ok seat := by rfl

theorem hasForm_seat : HasForm hall.registry seat.type (.enum 257) := by
  rw [← length_seat]
  exact .enum enumOf_seat isSimple_seat

def seatUnpacker : Built hall (unpack hall seat.type) :=
  (Built.build? _ _ "hall" {} {}).get (by decide +kernel)

def seatPacker : Built hall (pack hall seat.type) :=
  (Built.build? _ _ "hall" {} {}).get (by decide +kernel)

theorem variants_pass_seat :
    ∃ m : Built hall (unpack hall seat.type), UnpacksWord m 255 (GivesVariant (255 : Fin 257)) := by
  refine ⟨seatUnpacker, ?_⟩
  obtain ⟨-, h⟩ := variants_pass (.addEnum .empty addEnum_seat) enumOf_seat isSimple_seat
  rw [length_seat] at h
  have hm := (h 255 (by decide)).2.2 seatUnpacker
  rwa [if_pos (by decide)] at hm

theorem not_variants_pass_seat :
    Registry.addEnum {} seat = .ok hall.registry ∧
    ∃ (m : Built hall (pack hall seat.type)) (k : Built hall (unpack hall seat.type)),
      PacksVariant m (256 : Fin 257) ∧ UnpacksWord k 256 Refuses := by
  have hmade : hall.registry.Made := .addEnum .empty addEnum_seat
  exact ⟨addEnum_seat, _, _, packsVariant hmade hasForm_seat seatPacker 256,
    refuses_of_le hmade hasForm_seat seatUnpacker (by decide) (by decide)⟩

end MoveCodec.Codec
