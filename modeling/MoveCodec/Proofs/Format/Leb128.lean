import MoveCodec.Format.Leb128
import Mathlib.Tactic.Ring

/-!
# Reading LEB128

Reading what was written gives the number and leaves the bytes that follow. No form is empty, so a
list is never longer than its bytes. No other form that is read as the number is shorter.
-/
namespace MoveCodec.Leb128

variable {g groups k n : Nat} {rest bs : Bytes}

theorem toNat_byte (h : n < 256) : (UInt8.ofNat n).toNat = n :=
  UInt8.toNat_ofNat_of_lt' h

theorem byte_lt_64 (h : n < 256) : UInt8.ofNat n < 64 ↔ n < 64 := by
  rw [UInt8.lt_iff_toNat_lt, toNat_byte h]
  rfl

theorem byte_lt_128 (h : n < 256) : UInt8.ofNat n < 128 ↔ n < 128 := by
  rw [UInt8.lt_iff_toNat_lt, toNat_byte h]
  rfl

theorem readUnsigned?_last (h : n < 128) (groups : Nat) (rest : Bytes) :
    readUnsigned? (groups + 1) (UInt8.ofNat n :: rest) = some (n, rest) := by
  rw [readUnsigned?, if_pos ((byte_lt_128 (by omega)).2 h), toNat_byte (by omega)]

theorem readUnsigned?_unsigned (h : n < 128 ^ (groups + 1)) (rest : Bytes) :
    readUnsigned? (groups + 1) (unsigned (groups + 1) n ++ rest) = some (n, rest) := by
  induction groups generalizing n with
  | zero =>
    rw [unsigned, if_pos (by simpa using h)]
    exact readUnsigned?_last (by simpa using h) 0 rest
  | succ groups ih =>
    rw [unsigned]
    split
    · exact readUnsigned?_last ‹_› _ rest
    · have hmore : ¬ UInt8.ofNat (n % 128 + 128) < 128 := by
        rw [byte_lt_128 (by omega)]
        omega
      have hrest : n / 128 < 128 ^ (groups + 1) :=
        Nat.div_lt_of_lt_mul (by rw [Nat.pow_succ] at h; omega)
      rw [List.cons_append, readUnsigned?, if_neg hmore, ih hrest, toNat_byte (by omega)]
      simp [Nat.mod_add_div]

theorem readSigned?_last {n : Int}
    (h : (n / 128 = 0 ∧ (n % 128).toNat < 64) ∨ (n / 128 = -1 ∧ 64 ≤ (n % 128).toNat))
    (groups : Nat) (rest : Bytes) :
    readSigned? (groups + 1) (UInt8.ofNat (n % 128).toNat :: rest) = some (n, rest) := by
  rw [readSigned?]
  rcases h with ⟨hrest, hlow⟩ | ⟨hrest, hlow⟩
  · have hlt : UInt8.ofNat (n % 128).toNat < 64 := (byte_lt_64 (by omega)).2 hlow
    rw [if_pos hlt, toNat_byte (by omega)]
    simp only [Option.some.injEq, Prod.mk.injEq, and_true]
    omega
  · have hge : ¬ UInt8.ofNat (n % 128).toNat < 64 := by
      rw [byte_lt_64 (by omega)]
      omega
    have hlt : UInt8.ofNat (n % 128).toNat < 128 := (byte_lt_128 (by omega)).2 (by omega)
    rw [if_neg hge, if_pos hlt, toNat_byte (by omega)]
    simp only [Option.some.injEq, Prod.mk.injEq, and_true]
    omega

theorem readSigned?_signed {n : Int} (hmin : -64 * 128 ^ groups ≤ n)
    (hmax : n < 64 * 128 ^ groups) (rest : Bytes) :
    readSigned? (groups + 1) (signed (groups + 1) n ++ rest) = some (n, rest) := by
  induction groups generalizing n with
  | zero =>
    rw [signed, if_pos (by omega)]
    exact readSigned?_last (by omega) 0 rest
  | succ groups ih =>
    rw [signed]
    split
    · rename_i hsign
      exact readSigned?_last hsign _ rest
    · have hmore : ¬ UInt8.ofNat ((n % 128).toNat + 128) < 128 := by
        rw [byte_lt_128 (by omega)]
        omega
      have hmore' : ¬ UInt8.ofNat ((n % 128).toNat + 128) < 64 := by
        rw [byte_lt_64 (by omega)]
        omega
      have hpow : (128 : Int) ^ (groups + 1) = 128 * 128 ^ groups := by ring
      have hread := ih (n := n / 128) (by omega) (by omega)
      rw [List.cons_append, readSigned?, if_neg hmore', if_neg hmore, hread,
        toNat_byte (by omega)]
      simp only [bind, Option.bind, pure, Option.some.injEq, Prod.mk.injEq, and_true]
      omega

theorem readU32?_u32 (v : UInt32) (rest : Bytes) : readU32? (u32 v ++ rest) = some (v, rest) := by
  have hv := v.toNat_lt
  rw [readU32?, u32, readUnsigned?_unsigned (by omega)]
  simp [UInt32.size, hv]

theorem length_unsigned_pos (groups n : Nat) : 0 < (unsigned (groups + 1) n).length := by
  rw [unsigned]
  split <;> simp

theorem length_u32_pos (v : UInt32) : 0 < (u32 v).length := length_unsigned_pos 4 v.toNat

/-! ## Minimal forms -/

/-- A pair of an encoder and a decoder, both with a limit on the groups. -/
structure GroupCode (α : Type) where
  write : Nat → α → Bytes
  read : Nat → Bytes → Option (α × Bytes)
  /-- The number fits in `k + 1` groups. -/
  Fits : Nat → α → Prop
  fits_mono : ∀ {k g a}, k ≤ g → Fits k a → Fits g a
  write_eq : ∀ {k g a}, Fits k a → k ≤ g → write (g + 1) a = write (k + 1) a
  read_write : ∀ {k a} rest, Fits k a → read (k + 1) (write (k + 1) a ++ rest) = some (a, rest)
  fits_of_read : ∀ {g bs a rest}, read g bs = some (a, rest) →
    ∃ b used, bs = b :: used ++ rest ∧ used.length < g ∧ Fits used.length a

namespace GroupCode

variable {α : Type} {code : GroupCode α} {limit limit' : Nat} {a a' : α} {bs bs' : Bytes}

/-- `bs` is the written form of a number, of at most `limit` groups. -/
structure Minimal (code : GroupCode α) (limit : Nat) (a : α) (bs : Bytes) : Prop where
  length_le : bs.length ≤ limit
  write_eq : ∀ g, limit ≤ g → code.write g a = bs
  read_eq : ∀ g rest, limit ≤ g → code.read g (bs ++ rest) = some (a, rest)
  shortest : ∀ g cs rest, code.read g (cs ++ rest) = some (a, rest) → bs.length ≤ cs.length

theorem length_write_le (h : code.Fits k a) : (code.write (k + 1) a).length ≤ k + 1 := by
  obtain ⟨b, used, hcode, hlt, -⟩ := code.fits_of_read (code.read_write [] h)
  rw [List.append_cancel_right hcode]
  exact hlt

theorem minimal_write (h : code.Fits k a) :
    code.Minimal (k + 1) a (code.write (k + 1) a) where
  length_le := length_write_le h
  write_eq g hg := by
    obtain ⟨g, rfl⟩ := Nat.exists_eq_add_of_lt hg
    exact code.write_eq h (by omega)
  read_eq g rest hg := by
    obtain ⟨g, rfl⟩ := Nat.exists_eq_add_of_lt hg
    rw [← code.write_eq h (g := k + g) (by omega)]
    exact code.read_write rest (code.fits_mono (by omega) h)
  shortest g cs rest hread := by
    obtain ⟨b, used, hcs, -, hfits⟩ := code.fits_of_read hread
    rw [List.append_cancel_right hcs]
    rcases Nat.le_total used.length k with hle | hle
    · rw [code.write_eq hfits hle]
      exact length_write_le hfits
    · exact (length_write_le h).trans (Nat.succ_le_succ hle)

/-- What follows the forms of two numbers tells nothing about where they end. -/
theorem Minimal.unique (h : code.Minimal limit a bs) (h' : code.Minimal limit' a' bs')
    {rest' : Bytes} (heq : bs ++ rest = bs' ++ rest') : a = a' ∧ rest = rest' := by
  have hread := h.read_eq (max limit limit') rest (le_max_left _ _)
  rw [heq, h'.read_eq _ rest' (le_max_right _ _)] at hread
  exact ⟨(Prod.mk.inj (Option.some.inj hread)).1.symm, (Prod.mk.inj (Option.some.inj hread)).2.symm⟩

end GroupCode

/-! ## Unsigned numbers -/

theorem unsigned_eq_of_lt (h : n < 128 ^ (k + 1)) (hle : k ≤ g) :
    unsigned (g + 1) n = unsigned (k + 1) n := by
  induction k generalizing g n with
  | zero =>
    have hn : n < 128 := by simpa using h
    rw [unsigned, unsigned, if_pos hn, if_pos hn]
  | succ k ih =>
    obtain ⟨g, rfl⟩ := Nat.exists_eq_add_of_le' hle
    have hrest : n / 128 < 128 ^ (k + 1) := Nat.div_lt_of_lt_mul (by rwa [Nat.pow_succ'] at h)
    rw [unsigned, ← Nat.add_assoc, ih hrest (Nat.le_add_left k g)]
    rfl

theorem lt_of_readUnsigned? (h : readUnsigned? g bs = some (n, rest)) :
    ∃ b used, bs = b :: used ++ rest ∧ used.length < g ∧ n < 128 ^ (used.length + 1) := by
  induction g generalizing bs n with
  | zero => cases h
  | succ g ih =>
    cases bs with
    | nil => cases h
    | cons b bs =>
      have hb := b.toNat_lt
      rw [readUnsigned?] at h
      split at h
      · rename_i hlast
        cases h
        exact ⟨b, [], rfl, by simp, by simpa [UInt8.lt_iff_toNat_lt] using hlast⟩
      · obtain ⟨⟨n', rest'⟩, hread, heq⟩ := Option.bind_eq_some_iff.1 h
        cases heq
        obtain ⟨b', used, rfl, hused, hlt⟩ := ih hread
        refine ⟨b, b' :: used, rfl, Nat.succ_lt_succ hused, ?_⟩
        rw [List.length_cons, Nat.pow_succ']
        omega

def unsignedCode : GroupCode Nat where
  write := unsigned
  read := readUnsigned?
  Fits k n := n < 128 ^ (k + 1)
  fits_mono hle h := h.trans_le (Nat.pow_le_pow_right (by decide) (by omega))
  write_eq := unsigned_eq_of_lt
  read_write rest h := readUnsigned?_unsigned h rest
  fits_of_read := lt_of_readUnsigned?

theorem minimal_u32 (v : UInt32) : unsignedCode.Minimal 5 v.toNat (u32 v) :=
  unsignedCode.minimal_write (k := 4) (v.toNat_lt.trans (by decide))

/-! ## Signed numbers -/

theorem signed_eq_of_range {n : Int} (h : -64 * 128 ^ k ≤ n ∧ n < 64 * 128 ^ k)
    (hle : k ≤ g) : signed (g + 1) n = signed (k + 1) n := by
  induction k generalizing g n with
  | zero =>
    have hlast : (n / 128 = 0 ∧ (n % 128).toNat < 64) ∨ (n / 128 = -1 ∧ 64 ≤ (n % 128).toNat) := by
      omega
    rw [signed, signed, if_pos hlast, if_pos hlast]
  | succ k ih =>
    obtain ⟨g, rfl⟩ := Nat.exists_eq_add_of_le' hle
    have hpow : (128 : Int) ^ (k + 1) = 128 * 128 ^ k := by ring
    have hrest : -64 * 128 ^ k ≤ n / 128 ∧ n / 128 < 64 * 128 ^ k := by omega
    rw [signed, ← Nat.add_assoc, ih hrest (Nat.le_add_left k g)]
    rfl

theorem range_of_readSigned? {n : Int} (h : readSigned? g bs = some (n, rest)) :
    ∃ b used, bs = b :: used ++ rest ∧ used.length < g ∧
      -64 * 128 ^ used.length ≤ n ∧ n < 64 * 128 ^ used.length := by
  induction g generalizing bs n with
  | zero => cases h
  | succ g ih =>
    cases bs with
    | nil => cases h
    | cons b bs =>
      have hb := b.toNat_lt
      rw [readSigned?] at h
      simp only [UInt8.lt_iff_toNat_lt, UInt8.reduceToNat] at h
      split at h
      · cases h
        exact ⟨b, [], rfl, by simp, by simp; omega⟩
      · split at h
        · cases h
          exact ⟨b, [], rfl, by simp, by simp; omega⟩
        · obtain ⟨⟨n', rest'⟩, hread, heq⟩ := Option.bind_eq_some_iff.1 h
          cases heq
          obtain ⟨b', used, rfl, hused, hmin, hmax⟩ := ih hread
          have hpow : (128 : Int) ^ (used.length + 1) = 128 * 128 ^ used.length := by ring
          refine ⟨b, b' :: used, rfl, Nat.succ_lt_succ hused, ?_⟩
          rw [List.length_cons]
          omega

def signedCode : GroupCode Int where
  write := signed
  read := readSigned?
  Fits k n := -64 * 128 ^ k ≤ n ∧ n < 64 * 128 ^ k
  fits_mono {k g n} hle h := by
    have hpow : (128 : Int) ^ k ≤ 128 ^ g := by exact_mod_cast Nat.pow_le_pow_right (by decide) hle
    omega
  write_eq := signed_eq_of_range
  read_write rest h := readSigned?_signed h.1 h.2 rest
  fits_of_read := range_of_readSigned?

theorem minimal_s64 (w : Int64) : signedCode.Minimal 10 w.toInt (s64 w) := by
  have hmin := w.le_toInt
  have hmax := w.toInt_lt
  exact signedCode.minimal_write (k := 9) ⟨by omega, by omega⟩

theorem minimal_s32 (v : Int32) : signedCode.Minimal 5 v.toInt (s32 v) := by
  have hmin := v.le_toInt
  have hmax := v.toInt_lt
  exact signedCode.minimal_write (k := 4) ⟨by omega, by omega⟩

/-- The forms of 32 and 64 bits are minimal. A number of 32 bits has the same signed form at both
widths. No form is the beginning of another one, and each stands for one number. -/
theorem codes_minimal :
    (∀ v, unsignedCode.Minimal 5 v.toNat (u32 v)) ∧
    (∀ w, signedCode.Minimal 10 w.toInt (s64 w)) ∧
    (∀ v, signedCode.Minimal 5 v.toInt (s32 v) ∧ s64 v.toInt64 = s32 v) ∧
    (∀ v v' rest rest', u32 v ++ rest = u32 v' ++ rest' → v = v' ∧ rest = rest') ∧
    ∀ w w' rest rest', s64 w ++ rest = s64 w' ++ rest' → w = w' ∧ rest = rest' := by
  refine ⟨minimal_u32, minimal_s64, fun v => ⟨minimal_s32 v, ?_⟩, fun v v' rest rest' h => ?_,
    fun w w' rest rest' h => ?_⟩
  · have hwrite := (minimal_s32 v).write_eq 10 (by decide)
    rwa [← v.toInt_toInt64] at hwrite
  · obtain ⟨hv, hrest⟩ := (minimal_u32 v).unique (minimal_u32 v') h
    exact ⟨UInt32.toNat_inj.1 hv, hrest⟩
  · obtain ⟨hw, hrest⟩ := (minimal_s64 w).unique (minimal_s64 w') h
    exact ⟨Int64.toInt_inj.1 hw, hrest⟩

/-- The smallest number takes all ten bytes. -/
theorem codes_minimal_least : ∀ g cs rest,
    signedCode.read g (cs ++ rest) = some (Int64.minValue.toInt, rest) → 10 ≤ cs.length :=
  (codes_minimal.2.1 Int64.minValue).shortest

end MoveCodec.Leb128
