import MoveCodec.Proofs.Codec.Words

/-!
# Reading words

What the checks of an unpacker say about the bytes they let pass, and which bytes they let pass.
-/
namespace MoveCodec

open Machine Machine.Compute List Bytes

variable {a : UInt32} {n : Nat} {f : Nat → UInt8}

section

variable {α β : Type} {vm vm' : Vm}

theorem run_map_eq_ok {m : Compute α} {c : α → β} {y : β} (h : (c <$> m).run vm = .ok (y, vm')) :
    ∃ x, m.run vm = .ok (x, vm') ∧ y = c x := by
  rw [map_eq_pure_bind] at h
  obtain ⟨x, vm₁, hm, h⟩ := run_bind_eq_ok.mp h
  cases h
  exact ⟨x, hm, rfl⟩

theorem run_look_bind (l : Look) (f : Unit → Compute β) (vm : Vm) :
    (look l >>= f).run vm = (f ()).run { vm with seen := l :: vm.seen } := rfl

theorem read_eq_ok {a : Nat} {bs : Bytes} (h : (Compute.read a n).run vm = .ok (bs, vm')) :
    a + n ≤ vm.memory.size ∧ bs = view vm.memory.byte a n ∧ vm' = vm := by
  by_cases hfit : a + n ≤ vm.memory.size
  · rw [run_read hfit] at h
    cases h
    exact ⟨hfit, rfl, rfl⟩
  · simp [Compute.read, Memory.read?, hfit] at h

theorem load8_eq_ok {b x : UInt32} (h : (load8 a b).run vm = .ok (x, vm')) :
    x = (vm.memory.byte (a.toNat + b.toNat)).toUInt32 ∧ vm' = vm := by
  obtain ⟨bs, hread, rfl⟩ := run_map_eq_ok h
  obtain ⟨-, rfl, rfl⟩ := read_eq_ok hread
  simp [view, toNatLE]

theorem trapWhen_eq_ok {b : Bool} {u : Unit} (h : (trapWhen b).run vm = .ok (u, vm')) :
    b = false ∧ vm' = vm := by
  simp only [trapWhen] at h
  split at h
  · cases h
  · rename_i hb
    cases h
    exact ⟨by simpa using hb, rfl⟩

theorem run_trapWhen_false {b : Bool} (h : b = false) : (trapWhen b).run vm = .ok ((), vm) := by
  simp [trapWhen, h]

end

/-! ## Zeros -/

theorem requireZero_eq_ok {vm vm' : Vm} {u : Unit} (h : (requireZero n a).run vm = .ok (u, vm')) :
    (∀ i < n, vm.memory.byte (a + UInt32.ofNat i).toNat = 0) ∧ vm' = vm := by
  induction n generalizing a with
  | zero =>
    cases h
    exact ⟨by simp, rfl⟩
  | succ n ih =>
    rw [requireZero] at h
    obtain ⟨x, vm₁, hload, h₁⟩ := run_bind_eq_ok.mp h
    obtain ⟨_, vm₂, htrap, h₂⟩ := run_bind_eq_ok.mp h₁
    obtain ⟨rfl, rfl⟩ := load8_eq_ok hload
    obtain ⟨hzero, rfl⟩ := trapWhen_eq_ok htrap
    obtain ⟨hrest, rfl⟩ := ih h₂
    refine ⟨fun i hi => ?_, rfl⟩
    cases i with
    | zero =>
      have h0 : (0 : UInt32).toNat = 0 := rfl
      rw [h0, Nat.add_zero, bne_eq_false_iff_eq, ← UInt32.toNat_inj] at hzero
      have hbyte : vm'.memory.byte a.toNat = 0 := UInt8.toNat_inj.1 (by simpa using hzero)
      simpa using hbyte
    | succ i =>
      have hnext : a + UInt32.ofNat (i + 1) = a + 1 + UInt32.ofNat i := by
        rw [UInt32.ofNat_add, UInt32.add_assoc, UInt32.add_comm (UInt32.ofNat i)]
        rfl
      rw [hnext]
      exact hrest i (by omega)

/-- Bytes that were checked, if the addresses do not wrap. -/
theorem view_of_requireZero (h : ∀ i < n, f (a + UInt32.ofNat i).toNat = 0)
    (hfit : a.toNat + n ≤ 4294967296) : view f a.toNat n = List.replicate n 0 := by
  refine eq_replicate_iff.2 ⟨length_view, fun b hb => ?_⟩
  obtain ⟨i, hi, rfl⟩ := mem_map.1 hb
  rw [mem_range] at hi
  have hadd : (a + UInt32.ofNat i).toNat = a.toNat + i := toNat_add_ofNat (by omega)
  rw [← hadd]
  exact h i hi

/-- The check of bytes in memory is exact. -/
theorem requireZero_run {vm : Vm} (hfit : a.toNat + n ≤ vm.memory.size)
    (hsize : vm.memory.size ≤ 4294967296) : (requireZero n a).run vm =
      if view vm.memory.byte a.toNat n = List.replicate n 0 then .ok ((), vm)
      else .error (.trap .unreachable) := by
  induction n generalizing a with
  | zero => rfl
  | succ n ih =>
    have h0 : (0 : UInt32).toNat = 0 := rfl
    rw [requireZero, run_bind_ok (run_load8 (by omega)), h0, Nat.add_zero,
      show n + 1 = 1 + n by omega, view_add, replicate_add]
    by_cases hbyte : vm.memory.byte a.toNat = 0
    · have hhead : view vm.memory.byte a.toNat 1 = List.replicate 1 0 := by simp [view, hbyte]
      rw [hbyte, run_bind_ok (run_trapWhen_false (by decide)), hhead]
      simp only [append_cancel_left_eq]
      cases n with
      | zero => rfl
      | succ n =>
        have h1 : (a + 1).toNat = a.toNat + 1 := toNat_add_ofNat (n := 1) (by omega)
        rw [← h1]
        exact ih (by omega)
    · have htrap : (trapWhen ((vm.memory.byte a.toNat).toUInt32 != 0)).run vm =
          .error (.trap .unreachable) := by
        have hne : (vm.memory.byte a.toNat).toUInt32 ≠ 0 := fun h =>
          hbyte (UInt8.toNat_inj.1 (by simpa using congrArg UInt32.toNat h))
        simp [trapWhen, hne]
      rw [run_bind_error htrap, if_neg]
      simp [view, hbyte]

theorem run_requireZero {vm : Vm} (hs : vm.Sane) (hfit : a.toNat + n ≤ vm.memory.size)
    (h : view vm.memory.byte a.toNat n = List.replicate n 0) :
    (requireZero n a).run vm = .ok ((), vm) := by
  rw [requireZero_run hfit hs.size_le, if_pos h]

/-! ## Numbers -/

section

variable {f : Nat → UInt8} {a n : Nat}

/-- The low bytes of a word that spells a small number. -/
theorem view_low {k : Nat} (h : view f a 32 = ofNatBE 32 n) (hk : k ≤ 32)
    (hn : n < 256 ^ k) : view f (a + (32 - k)) k = ofNatBE k n := by
  obtain ⟨m, hm⟩ : ∃ m, 32 = m + k := ⟨32 - k, by omega⟩
  rw [hm, view_add, ofNatBE_of_lt hn] at h
  rw [hm, Nat.add_sub_cancel]
  exact (append_inj h (by simp)).2

/-- A number that is read with its bytes in the wrong order, and put right. -/
theorem toNatBE_number {k : Nat} (h : view f a k = ofNatBE k n) (hn : n < 256 ^ k) :
    toNatBE (ofNatLE k (number f a k)) = n := by
  rw [number, h, ofNatLE_of_length (length_ofNatBE ..), toNatBE_ofNatBE]
  exact Nat.mod_eq_of_lt hn

theorem swap32_number (h : view f a 4 = ofNatBE 4 n) (hn : n < 4294967296) :
    swap32 (UInt32.ofNat (number f a 4)) = UInt32.ofNat n := by
  have hnum : number f a 4 < UInt32.size := number_lt
  rw [← UInt32.toNat_inj, toNat_swap32, UInt32.toNat_ofNat_of_lt' hnum, toNatBE_number h hn,
    UInt32.toNat_ofNat_of_lt' hn]

theorem swap64_number (h : view f a 8 = ofNatBE 8 n) (hn : n < 18446744073709551616) :
    swap64 (UInt64.ofNat (number f a 8)) = UInt64.ofNat n := by
  have hnum : number f a 8 < UInt64.size := number_lt
  rw [← UInt64.toNat_inj, toNat_swap64, UInt64.toNat_ofNat_of_lt' hnum, toNatBE_number h hn,
    UInt64.toNat_ofNat_of_lt' hn]

end

def wordAt (f : Nat → UInt8) (a n : Nat) : Prop := view f a 32 = ofNatBE 32 n

section

variable {vm vm' : Vm} {src x : UInt32} {width n : Nat}

/-- A word spells a number of `width` bytes just when the bytes before these are zero. -/
theorem word_lt_iff {a : Nat} (hwidth : width ≤ 32) : toNatBE (view f a 32) < 256 ^ width ↔
      view f a (32 - width) = List.replicate (32 - width) 0 := by
  have hsplit : view f a 32 = view f a (32 - width) ++ view f (a + (32 - width)) width := by
    rw [← view_add, Nat.sub_add_cancel hwidth]
  constructor
  · intro h
    have hword := ofNatBE_toNatBE (view f a 32)
    rw [length_view, ← Nat.sub_add_cancel hwidth, ofNatBE_of_lt (by rwa [Nat.sub_add_cancel hwidth]),
      Nat.sub_add_cancel hwidth, hsplit] at hword
    exact (append_inj hword.symm (by simp)).1
  · intro h
    have hlt := toNatBE_lt (view f (a + (32 - width)) width)
    rw [length_view] at hlt
    rwa [hsplit, h, toNatBE_zeros_append]

/-- The check of a word in memory is exact. -/
theorem loadWord_run (hwidth : width ≤ 4) (hfit : src.toNat + 32 ≤ vm.memory.size)
    (hsize : vm.memory.size ≤ 4294967296) :
    (loadWord src width).run vm =
      if toNatBE (view vm.memory.byte src.toNat 32) < 256 ^ width then
        .ok (UInt32.ofNat (toNatBE (view vm.memory.byte src.toNat 32)),
          { vm with seen := ⟨src.toNat, 32, false⟩ :: vm.seen })
      else .error (.trap .unreachable) := by
  have h28 : (28 : UInt32).toNat = 28 := rfl
  let vm₁ : Vm := { vm with seen := ⟨src.toNat, 32, false⟩ :: vm.seen }
  have hpart : src.toNat + (32 - width) ≤ vm₁.memory.size :=
    (Nat.add_le_add_left (Nat.sub_le 32 width) _).trans hfit
  have hcheck := requireZero_run hpart hsize
  rw [loadWord, run_look_bind]
  split
  · rename_i hlt
    have hword := ofNatBE_toNatBE (view vm.memory.byte src.toNat 32)
    rw [length_view] at hword
    have hlt₄ := hlt.trans_le (Nat.pow_le_pow_right (by decide) hwidth)
    rw [if_pos ((word_lt_iff (hwidth.trans (by decide))).1 hlt)] at hcheck
    have hload := run_load32 (show src.toNat + (28 : UInt32).toNat + 4 ≤ vm₁.memory.size from hfit)
    rw [run_bind_ok hcheck, run_map_ok swap32 hload, h28,
      swap32_number (view_low hword.symm (k := 4) (by decide) hlt₄) hlt₄]
  · rename_i hle
    rw [if_neg fun h => hle ((word_lt_iff (hwidth.trans (by decide))).2 h)] at hcheck
    rw [run_bind_error hcheck]

theorem loadWord_eq_ok (hs : vm.Sane) (hwidth : width ≤ 4)
    (h : (loadWord src width).run vm = .ok (x, vm')) :
    src.toNat + 32 ≤ vm.memory.size ∧ wordAt vm.memory.byte src.toNat x.toNat ∧
      x.toNat < 256 ^ width ∧ vm' = { vm with seen := ⟨src.toNat, 32, false⟩ :: vm.seen } := by
  have hfit : src.toNat + 32 ≤ vm.memory.size := by
    rw [loadWord, run_look_bind] at h
    obtain ⟨_, vm₁, hcheck, h₁⟩ := run_bind_eq_ok.mp h
    obtain ⟨-, rfl⟩ := requireZero_eq_ok hcheck
    obtain ⟨y, hload, -⟩ := run_map_eq_ok h₁
    obtain ⟨bs, hread, -⟩ := run_map_eq_ok hload
    exact (read_eq_ok hread).1
  have hword := ofNatBE_toNatBE (view vm.memory.byte src.toNat 32)
  rw [length_view] at hword
  rw [loadWord_run hwidth hfit hs.size_le] at h
  generalize toNatBE (view vm.memory.byte src.toNat 32) = n at h hword
  split at h
  · rename_i hlt
    cases h
    have hval : (UInt32.ofNat n).toNat = n :=
      toNat_ofNat_of_lt (hlt.trans_le (Nat.pow_le_pow_right (by decide) hwidth))
    rw [wordAt, hval]
    exact ⟨hfit, hword.symm, hlt, rfl⟩
  · cases h

theorem run_loadWord (hs : vm.Sane) (hwidth : width ≤ 4) (hfit : src.toNat + 32 ≤ vm.memory.size)
    (hword : wordAt vm.memory.byte src.toNat n) (hn : n < 256 ^ width) :
    (loadWord src width).run vm =
      .ok (UInt32.ofNat n, { vm with seen := ⟨src.toNat, 32, false⟩ :: vm.seen }) := by
  have hvalue : toNatBE (view vm.memory.byte src.toNat 32) = n := by
    rw [hword, toNatBE_ofNatBE]
    exact Nat.mod_eq_of_lt (hn.trans_le (Nat.pow_le_pow_right (by decide) (by omega)))
  rw [loadWord_run hwidth hfit hs.size_le, hvalue, if_pos hn]

end

end MoveCodec
