import MoveCodec.Proofs.Codec.UnpackCode
import MoveCodec.Proofs.Codec.Words

/-!
# Values that are built on the heap

An unpacker takes blocks from the end of the heap and fills them. Of what lay below the old end of
the heap nothing changes, except for the record or vector whose parts are being filled in. So a
value, once built, stays as it is while others are built beside it.
-/
namespace MoveCodec

open Machine Machine.Compute List Bytes

/-! ## States -/

/-- The heap only grew, and of what lay below its end only what lies from `lo` to `hi` can have
changed. -/
structure Machine.Vm.Edits (lo hi : Nat) (vm vm' : Vm) : Prop where
  top_le : vm.top.toNat ≤ vm'.top.toNat
  byte_eq : ∀ i < vm.top.toNat, i < lo ∨ hi ≤ i → vm.memory.byte i = vm'.memory.byte i
  limit_eq : vm'.memory.limit = vm.memory.limit
  stop_eq : vm'.stop = vm.stop
  sane : vm'.Sane

/-- The heap only grew, and nothing below its end has changed. -/
abbrev Machine.Vm.Grows (vm vm' : Vm) : Prop := Vm.Edits 0 0 vm vm'

namespace Machine.Vm

variable {vm vm₁ vm₂ : Vm} {lo hi lo' hi' n : Nat} {f : Nat → UInt8}

theorem Edits.refl (h : vm.Sane) : Vm.Edits lo hi vm vm :=
  ⟨le_rfl, fun _ _ _ => rfl, rfl, rfl, h⟩

theorem Edits.trans (h₁ : Vm.Edits lo hi vm vm₁) (h₂ : Vm.Edits lo hi vm₁ vm₂) :
    Vm.Edits lo hi vm vm₂ where
  top_le := h₁.top_le.trans h₂.top_le
  byte_eq i hi h := (h₁.byte_eq i hi h).trans (h₂.byte_eq i (hi.trans_le h₁.top_le) h)
  limit_eq := h₂.limit_eq.trans h₁.limit_eq
  stop_eq := h₂.stop_eq.trans h₁.stop_eq
  sane := h₂.sane

theorem Edits.mono (h : Vm.Edits lo hi vm vm₁) (hlo : lo' ≤ lo) (hhi : hi ≤ hi') :
    Vm.Edits lo' hi' vm vm₁ :=
  { h with byte_eq := fun i hi h' => h.byte_eq i hi (by omega) }

theorem Grows.edits (h : vm.Grows vm₁) : Vm.Edits lo hi vm vm₁ :=
  { h with byte_eq := fun i hi _ => h.byte_eq i hi (.inr (Nat.zero_le i)) }

/-- Changes at and above the end of the heap are none that count. -/
theorem Edits.grows (h : Vm.Edits lo hi vm vm₁) (hlo : vm.top.toNat ≤ lo) : vm.Grows vm₁ :=
  { h with byte_eq := fun i hi _ => h.byte_eq i hi (.inl (by omega)) }

theorem Becomes.edits (h : vm.Becomes n f vm₁)
    (hf : ∀ i < vm.top.toNat, i < lo ∨ hi ≤ i → vm.memory.byte i = f i) : Vm.Edits lo hi vm vm₁ where
  top_le := by rw [h.top_eq]; omega
  byte_eq i hi h' := by rw [h.byte_eq]; exact hf i hi h'
  limit_eq := h.limit_eq
  stop_eq := h.stop_eq
  sane := h.sane

/-- A write into the part that may change. -/
theorem Becomes.edits_patch {a : Nat} {bs : Bytes}
    (h : vm.Becomes n (patch vm.memory.byte a bs) vm₁) (hlo : lo ≤ a) (hhi : a + bs.length ≤ hi) :
    Vm.Edits lo hi vm vm₁ :=
  h.edits fun i _ hi => (patch_outside (by omega)).symm

/-- What was looked at does not matter. -/
theorem Sane.seen (h : vm.Sane) (seen : List Look) : Vm.Sane { vm with seen } :=
  ⟨h.1, h.2, h.3, h.4⟩

theorem grows_seen (h : vm.Sane) (seen : List Look) : vm.Grows { vm with seen } :=
  ⟨le_rfl, fun _ _ _ => rfl, rfl, rfl, h.seen seen⟩

end Machine.Vm

/-! ## Blocks -/

/-- The blocks lie between two addresses and do not overlap. -/
structure Fresh (lo hi : Nat) (bs : List Block) : Prop where
  inside : ∀ b ∈ bs, lo ≤ b.start ∧ b.stop ≤ hi
  apart : bs.Pairwise Block.Apart

section

variable {lo mid hi : Nat} {b : Block} {bs cs : List Block}

theorem fresh_nil : Fresh lo hi [] := ⟨by simp, .nil⟩

theorem fresh_single (h : lo ≤ b.start) (h' : b.stop ≤ hi) : Fresh lo hi [b] :=
  ⟨by simpa using ⟨h, h'⟩, pairwise_singleton ..⟩

theorem Fresh.append (h : Fresh lo mid bs) (h' : Fresh mid hi cs) (hlo : lo ≤ mid)
    (hhi : mid ≤ hi) : Fresh lo hi (bs ++ cs) where
  inside b hb := by
    rcases mem_append.1 hb with hb | hb
    · have := h.inside b hb
      omega
    · have := h'.inside b hb
      omega
  apart := pairwise_append.2 ⟨h.apart, h'.apart, fun a ha b hb =>
    .inl ((h.inside a ha).2.trans (h'.inside b hb).1)⟩

/-- A block before the others. -/
theorem Fresh.cons (h : Fresh mid hi bs) (hlo : lo ≤ b.start) (hmid : b.stop ≤ mid)
    (hle : mid ≤ hi) : Fresh lo hi (b :: bs) :=
  (fresh_single hlo hmid).append h (by simp only [Block.stop] at hmid; omega) hle

/-- A block behind the others, named first. -/
theorem Fresh.cons_last (h : Fresh lo mid bs) (hmid : mid ≤ b.start) (hhi : b.stop ≤ hi)
    (hle : lo ≤ mid) : Fresh lo hi (b :: bs) where
  inside c hc := by
    simp only [Block.stop] at *
    rcases mem_cons.1 hc with rfl | hc
    · omega
    · have := h.inside c hc
      simp only [Block.stop] at this
      omega
  apart := pairwise_cons.2 ⟨fun c hc => .inr ((h.inside c hc).2.trans hmid), h.apart⟩

theorem Fresh.mono {lo' hi' : Nat} (h : Fresh lo hi bs) (hlo : lo' ≤ lo) (hhi : hi ≤ hi') :
    Fresh lo' hi' bs :=
  ⟨fun b hb => ⟨hlo.trans (h.inside b hb).1, (h.inside b hb).2.trans hhi⟩, h.apart⟩

theorem Fresh.below (h : Fresh lo hi bs) : Below hi bs := fun b hb => (h.inside b hb).2

/-- Blocks outside of what may change keep their contents. -/
theorem Fresh.same {lo' hi' : Nat} {vm vm' : Vm} (h : Fresh lo hi bs)
    (he : Vm.Edits lo' hi' vm vm') (htop : hi ≤ vm.top.toNat) (hout : hi' ≤ lo ∨ hi ≤ lo') :
    Same vm.memory.byte vm'.memory.byte bs := by
  intro b hb i hstart hstop
  have := h.inside b hb
  exact he.byte_eq i (by omega) (by omega)

end

/-! ## Slots -/

def slotBytes : Value → Bytes
  | .i32 v => ofNatLE 4 v.toNat
  | .i64 v => ofNatLE 8 v.toNat

theorem length_slotBytes (v : Value) : (slotBytes v).length = slotSize v.wide := by
  cases v <;> exact length_ofNatLE _ _

theorem slotAt_patch (f : Nat → UInt8) (a : Nat) (v : Value) :
    slotAt (patch f a (slotBytes v)) v.wide a = v := by
  cases v with
  | i32 v =>
    change Value.i32 (UInt32.ofNat (number (patch f a (ofNatLE 4 v.toNat)) a 4)) = _
    rw [number_patch v.toNat_lt, UInt32.ofNat_toNat]
  | i64 v =>
    change Value.i64 (UInt64.ofNat (number (patch f a (ofNatLE 8 v.toNat)) a 8)) = _
    rw [number_patch v.toNat_lt, UInt64.ofNat_toNat]

theorem storeSlot_eq (a off : UInt32) (v : Value) :
    storeSlot v.wide a off v = write (a.toNat + off.toNat) (slotBytes v) := by
  cases v <;> rfl

section

variable {vm vm₁ vm₂ vm₃ : Vm} {v : Value} {a hi : Nat} {here rest : List Block}

/-- A part of a record or vector is built and put into its place; then the parts behind it are
built and put into theirs. -/
theorem put_part (h₁ : vm.Grows vm₁) (hhere : Fresh vm.top.toNat vm₁.top.toNat here)
    (h₂ : vm₁.Becomes 0 (patch vm₁.memory.byte a (slotBytes v)) vm₂)
    (h₃ : Vm.Edits (a + slotSize v.wide) hi vm₂ vm₃)
    (hrest : Fresh vm₂.top.toNat vm₃.top.toNat rest) (hle : a + slotSize v.wide ≤ hi)
    (hhi : hi ≤ vm.top.toNat) :
    slotAt vm₃.memory.byte v.wide a = v ∧ Same vm₁.memory.byte vm₃.memory.byte here ∧
      Vm.Edits a hi vm vm₃ ∧ Fresh vm.top.toNat vm₃.top.toNat (here ++ rest) := by
  have hlen := length_slotBytes v
  have htop₁ := h₁.top_le
  have htop₂ := h₂.top_eq
  have htop₃ := h₃.top_le
  have he₂ : Vm.Edits a hi vm₁ vm₂ := h₂.edits_patch le_rfl (by omega)
  have hput : Vm.Edits a hi vm₁ vm₃ := he₂.trans (h₃.mono (by omega) le_rfl)
  refine ⟨?_, hhere.same hput le_rfl (.inl hhi), h₁.edits.trans hput, ?_⟩
  · have hslot : Same vm₂.memory.byte vm₃.memory.byte [⟨a, slotSize v.wide⟩] := by
      intro b hb i hstart hstop
      rw [mem_singleton] at hb
      subst hb
      simp only [Block.stop] at hstart hstop
      exact h₃.byte_eq i (by omega) (.inl hstop)
    rw [← hslot.slotAt_eq v.wide le_rfl le_rfl, h₂.byte_eq]
    exact slotAt_patch _ _ _
  · exact hhere.append (by rwa [htop₂] at hrest) htop₁ (by omega)

end

def cellOf (v : Value) : Compute UInt32 := do
  let p ← allocate (UInt32.ofNat (slotSize v.wide))
  storeSlot v.wide p 0 v
  return p

theorem storeParam_boxed (rec offset : UInt32) (v : Value) :
    Codec.storeParam true v.wide rec offset v =
      cellOf v >>= fun cell => storeSlot false rec offset (.i32 cell) := by
  simp only [Codec.storeParam, cellOf, bind_assoc, if_true, pure_bind]
  rfl

theorem toNat_slotWord (wide : Bool) : (UInt32.ofNat (slotSize wide)).toNat = slotSize wide := by
  cases wide <;> rfl

theorem put_cell {vm vm₁ vm₂ : Vm} {v : Value} {cell : UInt32} {here : List Block}
    (holds : (Nat → UInt8) → Value → List Block → Prop)
    (hcongr : ∀ {f g}, Same f g here → holds f v here → holds g v here)
    (h₁ : vm.Grows vm₁) (hhere : Fresh vm.top.toNat vm₁.top.toNat here)
    (hv : holds vm₁.memory.byte v here) (h₂ : (cellOf v).run vm₁ = .ok (cell, vm₂)) :
    vm.Grows vm₂ ∧ CellAt vm₂.memory.byte v.wide (holds vm₂.memory.byte) (.i32 cell)
        (⟨cell.toNat, slotSize v.wide⟩ :: here) ∧
      Fresh vm.top.toNat vm₂.top.toNat (⟨cell.toNat, slotSize v.wide⟩ :: here) ∧
      vm₂.top.toNat = vm₁.top.toNat + slotSize v.wide := by
  obtain ⟨p, vm', halloc, h₂⟩ := run_bind_eq_ok.mp h₂
  obtain ⟨_, vm'', hstore, h₂⟩ := run_bind_eq_ok.mp h₂
  cases h₂
  obtain ⟨rfl, hb⟩ := allocate_becomes h₁.sane halloc
  rw [storeSlot_eq] at hstore
  obtain ⟨-, hb'⟩ := write_becomes hb.sane hstore
  have h0 : (0 : UInt32).toNat = 0 := rfl
  have hlen := length_slotBytes v
  rw [h0, Nat.add_zero] at hb'
  have htop := hb.top_eq
  have htop' := hb'.top_eq
  rw [toNat_slotWord] at htop
  have hgrows : vm₁.Grows vm₂ := by
    have he : Vm.Edits vm₁.top.toNat vm₂.top.toNat vm' vm₂ := hb'.edits_patch le_rfl (by omega)
    have hg : vm₁.Grows vm' := hb.edits fun _ _ _ => rfl
    exact (hg.edits.trans he).grows le_rfl
  refine ⟨h₁.trans hgrows, ⟨_, here, rfl, ?_, rfl⟩, ?_, by omega⟩
  · rw [hb'.byte_eq, slotAt_patch, ← hb'.byte_eq]
    exact hcongr (hhere.same hgrows le_rfl (.inl (Nat.zero_le _))) hv
  · exact hhere.cons_last le_rfl (by simp only [Block.stop]; omega) h₁.top_le

end MoveCodec
