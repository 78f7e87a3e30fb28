import MoveCodec.Proofs.Codec.Words
import MoveCodec.Proofs.Storage.SlotCode
import MoveCodec.Storage.Slot

/-!
# Slot arithmetic

What slot arithmetic does to the contents of memory. The addition in four parts with a carry adds
numbers of 256 bits, in place or not. So the code steps from a slot to the next one, and it derives
the slot of an object by two hashes. Slots in a row are distinct.
-/
namespace MoveCodec

open Machine Machine.Compute List Bytes

/-! ## Words -/

def wordOf (f : Nat → UInt8) (a : Nat) : Word := Word.ofBytes (view f a 32)

@[simp] theorem toList_wordOf (f : Nat → UInt8) (a : Nat) : (wordOf f a).toList = view f a 32 :=
  Word.toList_ofBytes length_view

theorem wordOf_patch (f : Nat → UInt8) (a : Nat) (w : Word) : wordOf (patch f a w.toList) a = w := by
  rw [wordOf, view_patch_of_length (by simp), Word.ofBytes_toList]

theorem patch_wordOf (f : Nat → UInt8) (a : Nat) : patch f a (wordOf f a).toList = f := by
  rw [toList_wordOf, patch_view]

/-- A word is left alone by what is written elsewhere. -/
theorem wordOf_patch_outside {f : Nat → UInt8} {a b : Nat} {bs : Bytes}
    (h : a + 32 ≤ b ∨ b + bs.length ≤ a) : wordOf (patch f b bs) a = wordOf f a := by
  rw [wordOf, wordOf, view_patch_outside h]

theorem toNat_wordOf (f : Nat → UInt8) (a : Nat) :
    (wordOf f a).toNat = toNatLE (view f a 32).reverse := by
  rw [Word.toNat, toList_wordOf, toNatBE]

/-! ## The next slot -/

namespace Storage

/-- Adding one byte by byte is adding one to the number. -/
theorem increment_eq (bs : Bytes) :
    increment bs = ofNatLE bs.length (toNatLE bs + 1) := by
  induction bs with
  | nil => rfl
  | cons b bs ih =>
    have hb := b.toNat_lt
    rw [increment, length_cons, ofNatLE, toNatLE]
    split
    · rename_i hlast
      have hnum : b.toNat = 255 := by
        have := congrArg UInt8.toNat hlast
        simp only [UInt8.toNat_add, UInt8.reduceToNat] at this
        omega
      have hlow : UInt8.ofNat (b.toNat + 256 * toNatLE bs + 1) = 0 := by
        apply UInt8.toNat_inj.mp
        simp only [UInt8.toNat_ofNat', UInt8.reduceToNat]
        omega
      rw [hlow, ih, show (b.toNat + 256 * toNatLE bs + 1) / 256 = toNatLE bs + 1 by omega]
    · rename_i hlast
      have hnum : b.toNat ≠ 255 := by
        intro h
        apply hlast
        apply UInt8.toNat_inj.mp
        simp [UInt8.toNat_add, h]
      have hlow : UInt8.ofNat (b.toNat + 256 * toNatLE bs + 1) = b + 1 := by
        apply UInt8.toNat_inj.mp
        simp only [UInt8.toNat_ofNat', UInt8.toNat_add, UInt8.reduceToNat]
        omega
      rw [hlow, show (b.toNat + 256 * toNatLE bs + 1) / 256 = toNatLE bs by omega,
        ofNatLE_toNatLE]

theorem nextSlot_eq (s : Slot) : nextSlot s = Word.ofNat (s.toNat + 1) := by
  apply Word.toList_inj
  have hlist : (nextSlot s).toList = (increment s.toList.reverse).reverse := by
    simp [nextSlot, Vector.toList]
  rw [hlist, increment_eq, Word.toList_ofNat, ofNatBE, Word.toNat, toNatBE]
  simp

/-- The slots in a row are steps from the first. -/
theorem getElem?_slots (s : Slot) {i n : Nat} (h : i < n) :
    (slots s n)[i]? = some (nextSlot^[i] s) := by
  induction n generalizing s i with
  | zero => omega
  | succ n ih =>
    cases i with
    | zero => rfl
    | succ i =>
      rw [slots, getElem?_cons_succ, ih _ (by omega)]
      rfl

end Storage

/-! ## Addition -/

section

variable {f : Nat → UInt8} {a b n m : Nat}

theorem number_add : number f a (m + n) = number f a m + 256 ^ m * number f (a + m) n := by
  rw [number, view_add, toNatLE_append, length_view]
  rfl

theorem number_congr {g : Nat → UInt8} (h : view f a n = view g b n) :
    number f a n = number g b n := by
  rw [number, number, h]

end

/-- The carry of a sum of three numbers, the last of them at most one. -/
theorem toNat_carry {x y c : UInt64} (hc : c.toNat ≤ 1) :
    (carry x (x + y) (x + y + c)).toNat = (x.toNat + y.toNat + c.toNat) / 18446744073709551616 := by
  have hx := x.toNat_lt
  have hy := y.toNat_lt
  rw [carry]
  simp only [UInt64.lt_iff_toNat_lt, UInt64.toNat_add]
  split
  · simp only [UInt64.reduceToNat]
    omega
  · simp only [UInt64.reduceToNat]
    omega

theorem ofNatLE_sum (x y c : UInt64) :
    ofNatLE 8 (x + y + c).toNat = ofNatLE 8 (x.toNat + y.toNat + c.toNat) := by
  rw [← ofNatLE_mod 8 (x.toNat + y.toNat + c.toNat)]
  congr 1
  simp only [UInt64.toNat_add]
  norm_num

/-- The source of an addition is where the sum goes, or apart from it. -/
def Beside (src dst : Nat) : Prop := src = dst ∨ src + 32 ≤ dst ∨ dst + 32 ≤ src

/-- What was added so far, in the lowest `k` bytes: memory has the sum of these bytes, and the
carry is what goes over. -/
structure Added (f : Nat → UInt8) (a b dst k : Nat) (m : Memory) (c : UInt64) : Prop where
  byte_eq : m.byte = patch f dst (ofNatLE k (number f a k + number f b k))
  carry_eq : c.toNat = (number f a k + number f b k) / 256 ^ k

section

variable {f : Nat → UInt8} {a b dst : UInt32} {vm : Vm} {m : Memory} {c : UInt64}

/-- The part of a source that was not added yet is as it was. -/
theorem Added.number_eq {k src : Nat} (h : Added f a.toNat b.toNat dst.toNat k m c)
    (hsrc : Beside src dst.toNat) (hk : k + 8 ≤ 32) :
    number m.byte (src + k) 8 = number f (src + k) 8 := by
  apply number_congr
  rw [h.byte_eq]
  apply view_patch_outside
  rw [length_ofNatLE]
  rcases hsrc with h | h | h <;> omega

theorem Added.part (vm : Vm) (off : UInt32) {k : Nat} (hoff : off.toNat = k) (hk : k + 8 ≤ 32)
    (ha : Beside a.toNat dst.toNat) (hb : Beside b.toNat dst.toNat)
    (hfit : ∀ x ∈ [a, b, dst], x.toNat + 32 ≤ m.size)
    (h : Added f a.toNat b.toNat dst.toNat k m c) :
    ∃ c' m', (addPart a b dst off c).run { vm with memory := m } = .ok (c', { vm with memory := m' }) ∧
      m'.size = m.size ∧ m'.limit = m.limit ∧ Added f a.toNat b.toNat dst.toNat (k + 8) m' c' := by
  subst hoff
  simp only [mem_cons, not_mem_nil, or_false, forall_eq_or_imp, forall_eq] at hfit
  obtain ⟨hfa, hfb, hfd⟩ := hfit
  set x := number f (a.toNat + off.toNat) 8 with hx
  set y := number f (b.toNat + off.toNat) 8 with hy
  have hlx : x < 18446744073709551616 := number_lt
  have hly : y < 18446744073709551616 := number_lt
  set s := number f a.toNat off.toNat + number f b.toNat off.toNat with hs
  have hc : c.toNat = s / 256 ^ off.toNat := h.carry_eq
  have hc1 : c.toNat ≤ 1 := by
    have hlt : s < 256 ^ off.toNat * 2 := by
      have := number_lt (f := f) (a := a.toNat) (n := off.toNat)
      have := number_lt (f := f) (a := b.toNat) (n := off.toNat)
      omega
    have := Nat.div_lt_of_lt_mul hlt
    omega
  -- The sum of one part more, and what the step writes and carries over.
  have hsum : number f a.toNat (off.toNat + 8) + number f b.toNat (off.toNat + 8) =
      s + 256 ^ off.toNat * (x + y) := by
    rw [number_add, number_add, hs, hx, hy]
    ring
  have hdiv : (s + 256 ^ off.toNat * (x + y)) / 256 ^ off.toNat = x + y + c.toNat := by
    rw [Nat.add_mul_div_left _ _ (by positivity), hc, Nat.add_comm]
  have hlow : ofNatLE off.toNat (s + 256 ^ off.toNat * (x + y)) = ofNatLE off.toNat s := by
    rw [← ofNatLE_mod, Nat.add_mul_mod_self_left, ofNatLE_mod]
  have hbytes : patch m.byte (dst.toNat + off.toNat) (ofNatLE 8 (x + y + c.toNat)) =
      patch f dst.toNat (ofNatLE (off.toNat + 8)
        (number f a.toNat (off.toNat + 8) + number f b.toNat (off.toNat + 8))) := by
    rw [hsum, ofNatLE_add, hdiv, hlow, patch_append, length_ofNatLE, ← h.byte_eq]
  have hax := h.number_eq ha hk
  have hby := h.number_eq hb hk
  have hux : (UInt64.ofNat x).toNat = x := UInt64.toNat_ofNat_of_lt hlx
  have huy : (UInt64.ofNat y).toNat = y := UInt64.toNat_ofNat_of_lt hly
  have hfit : dst.toNat + off.toNat +
      (ofNatLE 8 (UInt64.ofNat x + UInt64.ofNat y + c).toNat).length ≤ m.size := by
    rw [length_ofNatLE]
    omega
  refine ⟨carry (UInt64.ofNat x) (UInt64.ofNat x + UInt64.ofNat y)
    (UInt64.ofNat x + UInt64.ofNat y + c), m.splice (dst.toNat + off.toNat) _, ?_, by simp, by simp,
    (m.byte_splice_eq_patch hfit).trans ?_, ?_⟩
  · rw [addPart, run_bind_ok (run_load64 (by simp only; omega)), hax,
      run_bind_ok (run_load64 (by simp only; omega)), hby]
    exact run_bind_ok (run_write hfit)
  · rw [ofNatLE_sum, hux, huy, hbytes]
  · rw [toNat_carry hc1, hux, huy, hsum, ← hdiv, Nat.div_div_eq_div_mul, Nat.pow_add]

/-- The addition of two numbers, in place or not. -/
theorem run_addWide (ha : Beside a.toNat dst.toNat) (hb : Beside b.toNat dst.toNat)
    (hfit : ∀ x ∈ [a, b, dst], x.toNat + 32 ≤ vm.memory.size) :
    ∃ m, (addWide a b dst).run vm = .ok ((), { vm with memory := m }) ∧
      m.size = vm.memory.size ∧ m.limit = vm.memory.limit ∧
      m.byte = patch vm.memory.byte dst.toNat (ofNatLE 32
        (number vm.memory.byte a.toNat 32 + number vm.memory.byte b.toNat 32)) := by
  have h₀ : Added vm.memory.byte a.toNat b.toNat dst.toNat 0 vm.memory 0 :=
    ⟨by simp [ofNatLE], by simp [number, toNatLE]⟩
  obtain ⟨c₁, m₁, hrun₁, hs₁, hl₁, h₁⟩ := h₀.part vm 0 rfl (by decide) ha hb hfit
  rw [← hs₁] at hfit
  obtain ⟨c₂, m₂, hrun₂, hs₂, hl₂, h₂⟩ := h₁.part vm 8 rfl (by decide) ha hb hfit
  rw [← hs₂] at hfit
  obtain ⟨c₃, m₃, hrun₃, hs₃, hl₃, h₃⟩ := h₂.part vm 16 rfl (by decide) ha hb hfit
  rw [← hs₃] at hfit
  obtain ⟨c₄, m₄, hrun₄, hs₄, hl₄, h₄⟩ := h₃.part vm 24 rfl (by decide) ha hb hfit
  refine ⟨m₄, ?_, by omega, by omega, h₄.byte_eq⟩
  rw [addWide, run_bind_ok hrun₁, run_bind_ok hrun₂, run_bind_ok hrun₃, run_bind_ok hrun₄]
  rfl

theorem runs_addWide (hs : vm.Sane) (ha : Beside a.toNat dst.toNat) (hb : Beside b.toNat dst.toNat)
    (hfit : ∀ x ∈ [a, b, dst], x.toNat + 32 ≤ vm.memory.size) :
    Runs (addWide a b dst) vm () 0 (patch vm.memory.byte dst.toNat (ofNatLE 32
      (number vm.memory.byte a.toNat 32 + number vm.memory.byte b.toNat 32))) := by
  obtain ⟨m, hrun, hsize, hlimit, hbyte⟩ := run_addWide ha hb hfit
  exact ⟨_, hrun, hbyte ▸ hs.rewrites hsize hlimit⟩

end

/-! ## Slots in memory -/

section

variable {vm : Vm} {ptr owner id a b p : UInt32}

/-- The word in a buffer becomes the next slot; nothing else changes. -/
theorem runs_stepSlot (hs : vm.Sane) (hone : number vm.memory.byte 32 32 = 1)
    (hptr : Prelude.heapStart ≤ ptr) (hfit : ptr.toNat + 32 ≤ vm.memory.size) :
    Runs (stepSlot ptr) vm () 0
      (patch vm.memory.byte ptr.toNat (Storage.nextSlot (wordOf vm.memory.byte ptr.toNat)).toList) := by
  have hstart : 320 ≤ ptr.toNat := UInt32.le_iff_toNat_le.1 hptr
  have honeAt : Prelude.oneWord.toNat = 32 := rfl
  refine .bind₀ (runs_reverseBlock ptr ptr 32 hs hfit hfit) fun vm₁ hb₁ => ?_
  have hfit₁ := hfit.trans hb₁.size_le
  have hfits : ∀ x ∈ [ptr, Prelude.oneWord, ptr], x.toNat + 32 ≤ vm₁.memory.size := by
    simp only [mem_cons, not_mem_nil, or_false, forall_eq_or_imp, forall_eq]
    omega
  have hsum := runs_addWide hb₁.sane (.inl rfl) (.inr (.inl (by omega))) hfits
  have hnum : number vm₁.memory.byte ptr.toNat 32 = (wordOf vm.memory.byte ptr.toNat).toNat := by
    rw [hb₁.byte_eq, number, view_patch_of_length (by simp), toNat_wordOf]
  have hone₁ : number vm₁.memory.byte Prelude.oneWord.toNat 32 = 1 := by
    rw [← hone, honeAt, hb₁.byte_eq]
    exact number_congr (view_patch_outside (.inl (by omega)))
  rw [hnum, hone₁, hb₁.byte_eq, patch_patch (by simp)] at hsum
  refine .bind₀ hsum fun vm₂ hb₂ => ?_
  have hlast := runs_reverseBlock ptr ptr 32 hb₂.sane (hfit₁.trans hb₂.size_le)
    (hfit₁.trans hb₂.size_le)
  rw [hb₂.byte_eq, view_patch_of_length (by simp), patch_patch (by simp)] at hlast
  rw [Storage.nextSlot_eq, Word.toList_ofNat]
  exact hlast

theorem Machine.Host.read_eq {m : Memory} {n : Nat} (h : p.toNat + n ≤ m.size) :
    Host.read m p n = .ok (view m.byte p.toNat n) := by
  simp only [Host.read, Memory.read?, if_pos h]
  rfl

theorem Machine.Host.write_eq {m : Memory} {bs : Bytes} (h : p.toNat + bs.length ≤ m.size) :
    Host.write m p bs = .ok (m.splice p.toNat bs) := by
  simp only [Host.write, Memory.write?, if_pos h]

theorem runs_keccak (p n out : UInt32) (hs : vm.Sane) (hp : p.toNat + n.toNat ≤ vm.memory.size)
    (hout : out.toNat + 32 ≤ vm.memory.size) :
    Runs (host .keccak [p, n, out]) vm () 0
      (patch vm.memory.byte out.toNat (Keccak.hash (view vm.memory.byte p.toNat n.toNat)).toList) := by
  have hfit : out.toNat +
      (Keccak.hash (view vm.memory.byte p.toNat n.toNat)).toList.length ≤ vm.memory.size := by
    simpa using hout
  obtain ⟨vm', hrun, hb⟩ := runs_write hs hfit
  refine ⟨vm', ?_, hb⟩
  rw [← hrun]
  simp only [host, Host.call, Host.read_eq hp, bind, Except.bind, Host.write_eq hfit,
    Compute.write, if_pos hfit]
  rfl

theorem runs_hashKey (key src : UInt32) (hs : vm.Sane)
    (hkey : key.toNat + 32 ≤ vm.memory.size) (hsrc : src.toNat + 32 ≤ 256) :
    Runs (hashKey key src) vm () 0 (patch (patch vm.memory.byte 256
        (view vm.memory.byte key.toNat 32 ++ view vm.memory.byte src.toNat 32)) 128
      (Storage.mappingSlot (wordOf vm.memory.byte src.toNat)
        (wordOf vm.memory.byte key.toNat)).toList) := by
  have hsize : 320 ≤ vm.memory.size := hs.start_le.trans hs.top_le
  have h32 : (32 : UInt32).toNat = 32 := rfl
  have h64 : (64 : UInt32).toNat = 64 := rfl
  have hscratch : Prelude.hashScratch.toNat = 256 := rfl
  have hscratch' : (Prelude.hashScratch + 32).toNat = 288 := rfl
  have hout : Prelude.derivedSlot.toNat = 128 := rfl
  have hcopy := runs_copy (a := Prelude.hashScratch) (n := 32) hs
    (show key.toNat + (32 : UInt32).toNat ≤ vm.memory.size from hkey) (by omega)
  rw [h32, hscratch] at hcopy
  refine .bind₀ hcopy fun vm₁ hb₁ => ?_
  have hle₁ := hb₁.size_le
  have hcopy₁ := runs_copy (a := Prelude.hashScratch + 32) (n := 32) hb₁.sane
    (show src.toNat + (32 : UInt32).toNat ≤ vm₁.memory.size by omega) (by omega)
  rw [h32, hscratch', hb₁.byte_eq, view_patch_outside (.inl (by omega))] at hcopy₁
  have hboth : patch (patch vm.memory.byte 256 (view vm.memory.byte key.toNat 32)) 288
      (view vm.memory.byte src.toNat 32) = patch vm.memory.byte 256
        (view vm.memory.byte key.toNat 32 ++ view vm.memory.byte src.toNat 32) := by
    rw [patch_append, length_view]
  rw [hboth] at hcopy₁
  refine .bind₀ hcopy₁ fun vm₂ hb₂ => ?_
  have hle₂ := hb₂.size_le
  have hhash := runs_keccak Prelude.hashScratch 64 Prelude.derivedSlot
    hb₂.sane (by omega) (by omega)
  rw [h64, hscratch, hout, hb₂.byte_eq, view_patch_of_length (by simp)] at hhash
  rw [Storage.mappingSlot, toList_wordOf, toList_wordOf]
  exact hhash

def derivation (f : Nat → UInt8) (base : Storage.Slot) (owner id : Word) : Nat → UInt8 :=
  patch (patch f 256 (id.toList ++ (Storage.mappingSlot base owner).toList)) 128
    (Storage.objectSlot base owner id).toList

/-- The slot of an object is derived from the words of its owner and its identifier. The owner may
be anywhere, the identifier must not be where the derivation writes. -/
theorem runs_deriveSlot (hs : vm.Sane) (howner : owner.toNat + 32 ≤ vm.memory.size)
    (hid : Prelude.heapStart ≤ id) (hfit : id.toNat + 32 ≤ vm.memory.size) :
    Runs (deriveSlot owner id) vm () 0 (derivation vm.memory.byte (wordOf vm.memory.byte 96)
      (wordOf vm.memory.byte owner.toNat) (wordOf vm.memory.byte id.toNat)) := by
  have hstart : 320 ≤ id.toNat := UInt32.le_iff_toNat_le.1 hid
  have hbase : Prelude.objectsSlot.toNat = 96 := rfl
  have hmid : Prelude.derivedSlot.toNat = 128 := rfl
  refine .bind₀ (runs_hashKey owner Prelude.objectsSlot hs howner (by omega))
    fun vm₁ hb₁ => ?_
  have hlast := runs_hashKey id Prelude.derivedSlot hb₁.sane
    (hfit.trans hb₁.size_le) (by omega)
  have hword : wordOf vm₁.memory.byte id.toNat = wordOf vm.memory.byte id.toNat := by
    rw [hb₁.byte_eq, wordOf_patch_outside (.inr (by simp; omega)),
      wordOf_patch_outside (.inr (by simp; omega))]
  rw [← toList_wordOf, ← toList_wordOf, hword, hb₁.byte_eq, hmid, wordOf_patch, hbase] at hlast
  -- Both hashes use the same places, so only what the last one wrote is left.
  rwa [patch_comm (a := 128) (b := 256) (.inl (by simp)), patch_patch (a := 128) (by simp),
    patch_patch (a := 256) (by simp)] at hlast

theorem run_samePart {off : UInt32} (ha : a.toNat + off.toNat + 8 ≤ vm.memory.size)
    (hb : b.toNat + off.toNat + 8 ≤ vm.memory.size) :
    (samePart a b off).run vm = .ok (decide (view vm.memory.byte (a.toNat + off.toNat) 8 =
      view vm.memory.byte (b.toNat + off.toNat) 8), vm) := by
  rw [samePart, run_bind_ok (run_load64 ha), run_bind_ok (run_load64 hb), run_pure]
  refine congrArg (fun x => Except.ok (x, vm)) ?_
  have hnum (p : Nat) : (UInt64.ofNat (number vm.memory.byte p 8)).toNat =
      number vm.memory.byte p 8 := UInt64.toNat_ofNat_of_lt number_lt
  rw [Bool.eq_iff_iff, beq_iff_eq, decide_eq_true_iff, ← UInt64.toNat_inj, hnum, hnum]
  exact ⟨fun h => toNatLE_inj (by simp) h, fun h => number_congr h⟩

theorem run_sameWord (ha : a.toNat + 32 ≤ vm.memory.size) (hb : b.toNat + 32 ≤ vm.memory.size) :
    (sameWord a b).run vm =
      .ok (decide (wordOf vm.memory.byte a.toNat = wordOf vm.memory.byte b.toNat), vm) := by
  have h0 : (0 : UInt32).toNat = 0 := rfl
  have h8 : (8 : UInt32).toNat = 8 := rfl
  have h16 : (16 : UInt32).toNat = 16 := rfl
  have h24 : (24 : UInt32).toNat = 24 := rfl
  have hsplit (f : Nat → UInt8) (p : Nat) :
      view f p 32 = view f p 8 ++ (view f (p + 8) 8 ++ (view f (p + 16) 8 ++ view f (p + 24) 8)) := by
    rw [show 32 = 8 + (8 + (8 + 8)) from rfl, view_add, view_add, view_add, Nat.add_assoc,
      Nat.add_assoc]
  rw [sameWord, run_bind_ok (run_samePart (by omega) (by omega)),
    run_bind_ok (run_samePart (by omega) (by omega)),
    run_bind_ok (run_samePart (by omega) (by omega)),
    run_bind_ok (run_samePart (by omega) (by omega)), run_pure, h0, h8, h16, h24]
  refine congrArg (fun x => Except.ok (x, vm)) ?_
  rw [Bool.eq_iff_iff]
  simp only [Bool.and_eq_true, decide_eq_true_iff, Nat.add_zero]
  rw [← Vector.toList_inj, toList_wordOf, toList_wordOf, hsplit, hsplit]
  constructor
  · rintro ⟨⟨⟨h₁, h₂⟩, h₃⟩, h₄⟩
    rw [h₁, h₂, h₃, h₄]
  · intro h
    obtain ⟨h₁, h⟩ := append_inj h (by simp)
    obtain ⟨h₂, h⟩ := append_inj h (by simp)
    obtain ⟨h₃, h₄⟩ := append_inj h (by simp)
    exact ⟨⟨⟨h₁, h₂⟩, h₃⟩, h₄⟩

end

/-! ## Slots in a row -/

namespace Storage

theorem decrement_increment (bs : Bytes) : decrement (increment bs) = bs := by
  induction bs with
  | nil => rfl
  | cons b bs ih =>
    rw [increment]
    split
    · rename_i hlast
      have hb : b = 255 := (UInt8.eq_sub_iff_add_eq.2 hlast).trans rfl
      rw [decrement, if_pos rfl, ih, hb]
    · rename_i hlast
      rw [decrement, if_neg hlast, UInt8.add_sub_cancel]

theorem increment_decrement (bs : Bytes) : increment (decrement bs) = bs := by
  induction bs with
  | nil => rfl
  | cons b bs ih =>
    rw [decrement]
    split
    · rename_i hzero
      rw [increment, if_pos (by decide), ih, hzero]
    · rename_i hzero
      rw [increment, UInt8.sub_add_cancel, if_neg hzero]

theorem prevSlot_nextSlot (s : Slot) : prevSlot (nextSlot s) = s := by
  apply Word.toList_inj
  simp [prevSlot, nextSlot, Vector.toList, decrement_increment]

theorem nextSlot_prevSlot (s : Slot) : nextSlot (prevSlot s) = s := by
  apply Word.toList_inj
  simp [prevSlot, nextSlot, Vector.toList, increment_decrement]

theorem toNat_slot_lt (s : Slot) : s.toNat < 2 ^ 256 := by
  have h := Bytes.toNatLE_lt s.toList.reverse
  rwa [length_reverse, Vector.length_toList] at h

theorem toNat_nextSlot (s : Slot) : (nextSlot s).toNat = (s.toNat + 1) % 2 ^ 256 := by
  rw [nextSlot_eq, Word.toNat_ofNat]
  rfl

theorem toNat_prevSlot (s : Slot) : ((prevSlot s).toNat : Int) = (s.toNat - 1) % 2 ^ 256 := by
  have hnext := toNat_nextSlot (prevSlot s)
  rw [nextSlot_prevSlot] at hnext
  have hs := toNat_slot_lt s
  have hprev := toNat_slot_lt (prevSlot s)
  omega

theorem toNat_iterate_nextSlot (s : Slot) (i : Nat) :
    (nextSlot^[i] s).toNat = (s.toNat + i) % 2 ^ 256 := by
  induction i with
  | zero => exact (Nat.mod_eq_of_lt (toNat_slot_lt s)).symm
  | succ i ih =>
    rw [Function.iterate_succ_apply', toNat_nextSlot, ih]
    omega

/-- A row that does not come back to its start has no slot twice. -/
theorem nodup_slots (s : Slot) {n : Nat} (hn : n ≤ 2 ^ 256) : (slots s n).Nodup := by
  rw [nodup_iff_getElem?_ne_getElem?]
  intro i j hij hj heq
  rw [length_slots] at hj
  rw [getElem?_slots s (hij.trans hj), getElem?_slots s hj, Option.some_inj] at heq
  have hnum := congrArg Word.toNat heq
  rw [toNat_iterate_nextSlot, toNat_iterate_nextSlot] at hnum
  omega

/-- The neighbours of a slot and the slots in a row from it, as numbers. -/
theorem slots_arithmetic (s : Slot) :
    (nextSlot s).toNat = (s.toNat + 1) % 2 ^ 256 ∧
    ((prevSlot s).toNat : Int) = (s.toNat - 1) % 2 ^ 256 ∧
    prevSlot (nextSlot s) = s ∧ nextSlot (prevSlot s) = s ∧
    ∀ n, (slots s n).length = n ∧
      (∀ i < n, ∃ t, (slots s n)[i]? = some t ∧ t.toNat = (s.toNat + i) % 2 ^ 256) ∧
      (n ≤ 2 ^ 256 → (slots s n).Nodup) :=
  ⟨toNat_nextSlot s, toNat_prevSlot s, prevSlot_nextSlot s, nextSlot_prevSlot s, fun n =>
    ⟨length_slots s n,
      fun i hi => ⟨_, getElem?_slots s hi, toNat_iterate_nextSlot s i⟩, nodup_slots s⟩⟩

/-- Two slots in a row from the last one are distinct: the second is zero. -/
theorem slots_arithmetic_last :
    (slots (Word.ofNat (2 ^ 256 - 1)) 2).Nodup ∧
      ∃ t, (slots (Word.ofNat (2 ^ 256 - 1)) 2)[1]? = some t ∧ t.toNat = 0 := by
  obtain ⟨-, hat, hnodup⟩ := (slots_arithmetic (Word.ofNat (2 ^ 256 - 1))).2.2.2.2 2
  obtain ⟨t, ht, hnum⟩ := hat 1 (by decide)
  refine ⟨hnodup (by decide), t, ht, ?_⟩
  rw [hnum, Word.toNat_ofNat]
  rfl

end Storage

end MoveCodec
