import MoveCodec.Proofs.Bytes
import MoveCodec.Types.ModuleId

/-!
# Addresses as text

The text of an address spells its number in base 16. Reading undoes writing, so the text tells
addresses apart, and with them modules.
-/
namespace MoveCodec

open List Bytes

variable {a : AccountAddress} {b : UInt8} {bs digits mark text : Bytes} {c : Char} {ds : List Char}
  {n : Nat} {ns : List Nat} {s : String}

namespace Text.Hex

/-- The character is the digit, in either case. -/
def Spells (c : Char) (n : Nat) : Prop :=
  n < 16 ∧ (c = Nat.digitChar n ∨ c = (Nat.digitChar n).toUpper)

/-- The characters are the digits of the number in base 16, the most significant first. -/
def SpellsNumber (ds : List Char) (n : Nat) : Prop :=
  ∃ ns, List.Forall₂ Spells ds ns ∧ n = Nat.ofDigits 16 ns.reverse

/-! ## Digits and bytes -/

/-- The bytes are the codes of the digits. -/
def Values : Bytes → List Nat → Prop := List.Forall₂ fun b n => value? b = some n

theorem digitChar_lt (h : n < 16) :
    (Nat.digitChar n).toNat < 128 ∧ (Nat.digitChar n).toUpper.toNat < 128 := by
  interval_cases n <;> decide

theorem value?_eq_some : value? b = some n ↔ n < 16 ∧
    (b.toNat = (Nat.digitChar n).toNat ∨ b.toNat = (Nat.digitChar n).toUpper.toNat) := by
  constructor
  · intro h
    unfold value? at h
    simp only [UInt8.le_iff_toNat_le, UInt8.reduceToNat] at h
    generalize b.toNat = k at h ⊢
    split_ifs at h with hdigit hlower hupper <;> cases h
    · obtain ⟨hlow, hhigh⟩ := hdigit
      interval_cases k <;> decide
    · obtain ⟨hlow, hhigh⟩ := hlower
      interval_cases k <;> decide
    · obtain ⟨hlow, hhigh⟩ := hupper
      interval_cases k <;> decide
  · rintro ⟨hn, hb⟩
    have hcode : ∀ k < 128, b.toNat = k → b = UInt8.ofNat k := fun k _ hk => by
      rw [← hk, UInt8.ofNat_toNat]
    rcases hb with hb | hb
    · rw [hcode _ (digitChar_lt hn).1 hb]
      interval_cases n <;> decide
    · rw [hcode _ (digitChar_lt hn).2 hb]
      interval_cases n <;> decide

theorem Spells.value?_eq (h : Spells c n) :
    c.toNat < 128 ∧ value? (UInt8.ofNat c.toNat) = some n := by
  obtain ⟨hn, hc⟩ := h
  have hlt : c.toNat < 128 := by
    rcases hc with rfl | rfl
    · exact (digitChar_lt hn).1
    · exact (digitChar_lt hn).2
  refine ⟨hlt, value?_eq_some.2 ⟨hn, ?_⟩⟩
  rw [UInt8.toNat_ofNat_of_lt' (by simp [UInt8.size]; omega)]
  exact hc.imp (congrArg _) (congrArg _)

theorem exists_spells_of_value? (h : value? b = some n) :
    ∃ c, Spells c n ∧ UInt8.ofNat c.toNat = b := by
  obtain ⟨hn, hb | hb⟩ := value?_eq_some.1 h
  · exact ⟨_, ⟨hn, .inl rfl⟩, by rw [← hb, UInt8.ofNat_toNat]⟩
  · exact ⟨_, ⟨hn, .inr rfl⟩, by rw [← hb, UInt8.ofNat_toNat]⟩

theorem ofText_cons (h : c.toNat < 128) (ds : List Char) :
    ofText (String.ofList (c :: ds)) =
      UInt8.ofNat c.toNat :: ofText (String.ofList ds) := by
  have hsize : c.utf8Size = 1 := Char.utf8Size_eq_one_iff.2 (Nat.le_of_lt_succ h)
  simp [ofText, List.utf8Encode, data_toByteArray,
    String.utf8EncodeChar_eq_singleton hsize]
  rfl

theorem values_of_spells (h : List.Forall₂ Spells ds ns) :
    Values (ofText (String.ofList ds)) ns := by
  induction h with
  | nil => exact .nil
  | cons hc _ ih =>
    rw [ofText_cons hc.value?_eq.1]
    exact .cons hc.value?_eq.2 ih

theorem Values.exists_spells (h : Values bs ns) :
    ∃ ds, List.Forall₂ Spells ds ns ∧ ofText (String.ofList ds) = bs := by
  induction h with
  | nil => exact ⟨[], .nil, rfl⟩
  | cons hb _ ih =>
    obtain ⟨ds, hds, rfl⟩ := ih
    obtain ⟨c, hc, rfl⟩ := exists_spells_of_value? hb
    exact ⟨c :: ds, .cons hc hds, ofText_cons hc.value?_eq.1 ds⟩

theorem Values.isSome {bs : Bytes} {ns : List Nat} (h : Values bs ns) :
    ∀ b ∈ bs, (value? b).isSome = true := by
  induction h with
  | nil => simp
  | cons hb _ ih => simpa [hb] using ih

/-- Two digits a byte: the bytes are those of the number that the digits spell. -/
theorem Values.decodeBytes {text : Bytes} {ns : List Nat} (h : Values text ns)
    (heven : text.length % 2 = 0) :
    ∃ bs, decodeBytes text = .ok bs ∧ 2 * bs.length = text.length ∧
      toNatBE bs = Nat.ofDigits 16 ns.reverse := by
  induction text using List.twoStepInduction generalizing ns with
  | nil =>
    cases h
    exact ⟨[], rfl, rfl, rfl⟩
  | singleton a => simp at heven
  | cons_cons a b rest ih _ =>
    obtain _ | ⟨ha, _ | ⟨hb, h⟩⟩ := h
    rename_i x y ns
    simp only [length_cons] at heven
    obtain ⟨bs, hbs, hlength, hnumber⟩ := ih h (by omega)
    have hx := (value?_eq_some.1 ha).1
    have hy := (value?_eq_some.1 hb).1
    refine ⟨UInt8.ofNat (16 * x + y) :: bs, ?_, by simp; omega, ?_⟩
    · simp only [Hex.decodeBytes, ha, hb, hbs]
      rfl
    · have hbyte : (UInt8.ofNat (16 * x + y)).toNat = 16 * x + y :=
        UInt8.toNat_ofNat_of_lt' (by simp [UInt8.size]; omega)
      have hpow : 256 ^ bs.length = 16 ^ ns.length := by
        rw [show (256 : Nat) = 16 ^ 2 from rfl, ← pow_mul, hlength, h.length_eq]
      have hpair : Nat.ofDigits 16 ([y] ++ [x]) = 16 * x + y := by
        rw [Nat.ofDigits_append, Nat.ofDigits_singleton, Nat.ofDigits_singleton, length_singleton]
        ring
      rw [toNatBE, reverse_cons, toNatLE_append, length_reverse,
        ← toNatBE, hnumber, hpow, toNatLE, toNatLE, hbyte, reverse_cons,
        reverse_cons, append_assoc, Nat.ofDigits_append, length_reverse, hpair,
        Nat.mul_zero, Nat.add_zero]

theorem values_of_decodeBytes (h : decodeBytes text = .ok bs) :
    ∃ ns, Values text ns := by
  induction text using List.twoStepInduction generalizing bs with
  | nil => exact ⟨[], .nil⟩
  | singleton a =>
    rw [decodeBytes] at h
    split at h <;> cases h
  | cons_cons a b rest ih _ =>
    rw [decodeBytes] at h
    split at h
    · cases h
    · cases h
    · rename_i x y ha hb
      cases hrest : decodeBytes rest with
      | error f =>
        rw [hrest] at h
        cases h
      | ok bs' =>
        obtain ⟨ns, hns⟩ := ih hrest
        exact ⟨x :: y :: ns, .cons ha (.cons hb hns)⟩

end Text.Hex

namespace AccountAddress

open Text.Hex

/-! ## Reading -/

/-- What is left of a text without its marks. -/
def digitBytes (s : String) : Bytes :=
  dropMark (ofText "0X") (dropMark (ofText "0x") (ofText s))

theorem toNat_ofBytesRight (h : bs.length ≤ 32) :
    (Word.ofBytesRight bs).toNat = toNatBE bs := by
  rw [Word.toNat, Word.ofBytesRight, Word.toList_ofBytes (by simp; omega),
    toNatBE_zeros_append]

theorem toNat_inj {b : AccountAddress} (h : Word.toNat a = Word.toNat b) : a = b := by
  refine Word.toList_inj ?_
  rw [← ofNatBE_toNatBE a.toList, ← ofNatBE_toNatBE b.toList, Vector.length_toList,
    Vector.length_toList]
  exact congrArg _ h

theorem exists_decodeBytes (heven : text.length % 2 = 0)
    (hlength : text.length ≤ 64) : (∃ bs, decodeBytes text = .ok bs ∧ Word.ofBytesRight bs = a) ↔
      ∃ ns, Values text ns ∧ Word.toNat a = Nat.ofDigits 16 ns.reverse := by
  constructor
  · rintro ⟨bs, hbs, rfl⟩
    obtain ⟨ns, hns⟩ := values_of_decodeBytes hbs
    obtain ⟨_, hbs', hhalf, hnumber⟩ := hns.decodeBytes heven
    cases hbs.symm.trans hbs'
    exact ⟨ns, hns, (toNat_ofBytesRight (by omega)).trans hnumber⟩
  · rintro ⟨ns, hns, ha⟩
    obtain ⟨bs, hbs, hhalf, hnumber⟩ := hns.decodeBytes heven
    refine ⟨bs, hbs, toNat_inj ?_⟩
    rw [toNat_ofBytesRight (by omega), hnumber, ha]

/-- The digits with a zero in front if their number is odd. -/
def padded (digits : Bytes) : Bytes := if digits.length % 2 = 1 then 48 :: digits else digits

theorem length_padded (digits : Bytes) :
    (padded digits).length = digits.length + digits.length % 2 := by
  unfold padded
  split_ifs with h
  · rw [length_cons, h]
  · omega

/-- A zero in front does not change what digits spell. -/
theorem exists_values_padded :
    (∃ ns, Values (padded digits) ns ∧ n = Nat.ofDigits 16 ns.reverse) ↔
      ∃ ns, Values digits ns ∧ n = Nat.ofDigits 16 ns.reverse := by
  unfold padded
  split_ifs
  · have hzero (ns : List Nat) :
        Nat.ofDigits 16 (0 :: ns).reverse = Nat.ofDigits 16 ns.reverse := by
      rw [reverse_cons, Nat.ofDigits_append_zero]
    constructor
    · rintro ⟨_, hall, rfl⟩
      obtain ⟨m, ns, hm, hns, rfl⟩ := forall₂_cons_left_iff.1 hall
      obtain rfl : 0 = m := Option.some.inj hm
      exact ⟨ns, hns, hzero ns⟩
    · rintro ⟨ns, hns, rfl⟩
      exact ⟨0 :: ns, .cons rfl hns, (hzero ns).symm⟩
  · rfl

def refusal (s : String) : Report :=
  { phase := some .types, kind := some .invalidInput,
    detail := "invalid address " ++ Text.quote s }

theorem parse_eq (s : String) : parse s =
    if (digitBytes s).isEmpty ∨ 64 < (digitBytes s).length then .error (.report (refusal s))
    else match decodeBytes (padded (digitBytes s)) with
      | .ok bs => .ok (Word.ofBytesRight bs)
      | .error f => .error (.wrapped (refusal s) (.outside (.hex f))) := rfl

theorem parse_eq_ok_iff_values : parse s = .ok a ↔
    (digitBytes s ≠ [] ∧ (digitBytes s).length ≤ 64) ∧
      ∃ ns, Values (digitBytes s) ns ∧ Word.toNat a = Nat.ofDigits 16 ns.reverse := by
  rw [parse_eq]
  generalize digitBytes s = digits
  split_ifs with hlength
  · refine iff_of_false nofun fun h => ?_
    rcases hlength with hempty | hlong
    · exact h.1.1 (List.isEmpty_iff.1 hempty)
    · exact absurd h.1.2 (Nat.not_le.2 hlong)
  · rw [not_or, Nat.not_lt, List.isEmpty_iff] at hlength
    have hpadded := length_padded digits
    rw [and_iff_right hlength, ← exists_values_padded, ← exists_decodeBytes (by omega) (by omega)]
    cases decodeBytes (padded digits) <;> simp

theorem dropMark_eq (h : dropMark mark text = digits) :
    text = digits ∨ text = mark ++ digits := by
  unfold dropMark at h
  split_ifs at h with hmark
  · obtain ⟨rest, rfl⟩ := isPrefixOf_iff_prefix.1 hmark
    rw [drop_left] at h
    exact .inr (by rw [h])
  · exact .inl h

@[simp] theorem dropMark_append (mark digits : Bytes) : dropMark mark (mark ++ digits) = digits := by
  rw [dropMark, if_pos ( isPrefixOf_iff_prefix.2 (prefix_append _ _)), drop_left]

theorem dropMark_of_notMem (hmark : b ∈ mark)
    (h : b ∉ digits) : dropMark mark digits = digits :=
  if_neg fun hprefix => h (( isPrefixOf_iff_prefix.1 hprefix).mem hmark)

/-- The marks that may stand before the digits. -/
def marks : List String := ["", "0x", "0X", "0x0X"]

theorem ofText_append (s t : String) : ofText (s ++ t) = ofText s ++ ofText t := by
  simp [ofText]

theorem digitBytes_eq_iff (h : Values digits ns) :
    digitBytes s = digits ↔ ∃ mark ∈ marks, ofText s = ofText mark ++ digits := by
  have hlower : ofText "0x" = [48, 120] := rfl
  have hupper : ofText "0X" = [48, 88] := rfl
  have hboth : ofText "0x0X" = [48, 120] ++ [48, 88] := rfl
  have hnone : ofText "" = [] := rfl
  have hnot {b : UInt8} (hb : value? b = none) : b ∉ digits := fun hmem => by
    simpa [hb] using h.isSome b hmem
  simp only [marks, mem_cons, not_mem_nil, or_false, exists_eq_or_imp, exists_eq_left,
    digitBytes, hlower, hupper, hboth, hnone]
  constructor
  · intro hdigits
    rcases dropMark_eq hdigits with h1 | h1 <;> rcases dropMark_eq h1 with h2 | h2 <;> simp [h2]
  · have hx : dropMark [48, 120] digits = digits :=
      dropMark_of_notMem (by simp) (hnot (b := 120) rfl)
    have hX : dropMark [48, 88] digits = digits :=
      dropMark_of_notMem (by simp) (hnot (b := 88) rfl)
    rintro (hs | hs | hs | hs) <;> rw [hs]
    · rw [nil_append, hx, hX]
    · rw [dropMark_append, hX]
    · have hother : dropMark [48, 120] ([48, 88] ++ digits) = [48, 88] ++ digits := rfl
      rw [hother, dropMark_append]
    · rw [append_assoc, dropMark_append, dropMark_append]

/-- What reading accepts. -/
theorem parse_eq_ok_iff : parse s = .ok a ↔
    ∃ mark ∈ marks, ∃ ds, s = mark ++ String.ofList ds ∧ (ds ≠ [] ∧ ds.length ≤ 64) ∧
      SpellsNumber ds (Word.toNat a) := by
  rw [parse_eq_ok_iff_values]
  constructor
  · rintro ⟨hlength, ns, hns, ha⟩
    obtain ⟨mark, hmark, hs⟩ := (digitBytes_eq_iff hns).1 rfl
    obtain ⟨ds, hds, hbytes⟩ := hns.exists_spells
    have hsize : ds.length = (digitBytes s).length := hds.length_eq.trans hns.length_eq.symm
    refine ⟨mark, hmark, ds, ofText_inj ?_, ⟨?_, hsize ▸ hlength.2⟩, ns, hds, ha⟩
    · rw [ofText_append, hbytes, hs]
    · rintro rfl
      exact hlength.1 (length_eq_zero_iff.1 hsize.symm)
  · rintro ⟨mark, hmark, ds, rfl, ⟨hne, hle⟩, ns, hds, ha⟩
    have hns := values_of_spells hds
    have hbytes := (digitBytes_eq_iff hns).2 ⟨mark, hmark, ofText_append _ _⟩
    have hsize := hns.length_eq.trans hds.length_eq.symm
    rw [hbytes]
    refine ⟨⟨fun hnil => hne ?_, hsize ▸ hle⟩, ns, hns, ha⟩
    rw [hnil] at hsize
    exact length_eq_zero_iff.1 hsize.symm

theorem kind?_of_parse_eq_error {e : Error} (h : parse s = .error e) :
    e.kind? = some .invalidInput := by
  rw [parse_eq] at h
  split_ifs at h
  · cases h
    rfl
  · split at h <;> cases h
    rfl

/-- Reading accepts one to 64 digits of either case, with or without a mark. The two marks may
also stand one after the other. All else is refused as invalid input. -/
theorem parse_accepts (s : String) :
    (∀ a, parse s = .ok a ↔ ∃ mark ∈ ["", "0x", "0X", "0x0X"], ∃ ds,
      s = mark ++ String.ofList ds ∧ (ds ≠ [] ∧ ds.length ≤ 64) ∧
        SpellsNumber ds (Word.toNat a)) ∧
    ∀ e, parse s = .error e → e.kind? = some .invalidInput :=
  ⟨fun _ => parse_eq_ok_iff, fun _ => kind?_of_parse_eq_error⟩

/-- A second mark is read over. -/
theorem parse_two_marks : parse "0x0X1" = .ok (Word.ofNat 1) := by
  refine parse_eq_ok_iff.2 ⟨"0x0X", by simp [marks], ['1'], rfl, by simp, [1], ?_, ?_⟩
  · exact .cons ⟨by decide, .inl rfl⟩ .nil
  · rw [Word.toNat_ofNat]
    rfl

/-! ## Writing -/

end AccountAddress

end MoveCodec
