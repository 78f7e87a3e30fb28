import Mathlib
import MoveCodec.Machine.Memory

/-!
# Byte strings and memory

How numbers of several bytes split, and how writes to memory combine.
-/
namespace MoveCodec

open List

variable {a b n : Nat} {bs xs ys : Bytes}

namespace Bytes

theorem ofNatLE_add (a b n : Nat) :
    ofNatLE (a + b) n = ofNatLE a n ++ ofNatLE b (n / 256 ^ a) := by
  induction a generalizing n with
  | zero => simp [ofNatLE]
  | succ a ih =>
    have hdiv : n / 256 / 256 ^ a = n / 256 ^ (a + 1) := by
      rw [Nat.div_div_eq_div_mul, pow_succ']
    rw [show a + 1 + b = (a + b) + 1 by omega, ofNatLE, ofNatLE, ih, hdiv, cons_append]

theorem ofNatLE_of_length (h : bs.length = n) :
    ofNatLE n (toNatLE bs) = bs :=
  h ▸ ofNatLE_toNatLE bs

theorem ofNatLE_mod (width n : Nat) : ofNatLE width (n % 256 ^ width) = ofNatLE width n := by
  rw [show n % 256 ^ width = toNatLE (ofNatLE width n) from (toNatLE_ofNatLE width n).symm]
  exact ofNatLE_of_length (length_ofNatLE ..)

theorem toNatLE_append (xs ys : Bytes) :
    toNatLE (xs ++ ys) = toNatLE xs + 256 ^ xs.length * toNatLE ys := by
  induction xs with
  | nil => simp [toNatLE]
  | cons x xs ih =>
    simp only [cons_append, toNatLE, ih, length_cons, pow_succ']
    ring

theorem toNatBE_lt (bs : Bytes) : toNatBE bs < 256 ^ bs.length := by
  have := toNatLE_lt bs.reverse
  rwa [length_reverse] at this

theorem toNatLE_inj (hlen : xs.length = ys.length)
    (h : toNatLE xs = toNatLE ys) : xs = ys := by
  rw [← ofNatLE_toNatLE xs, ← ofNatLE_toNatLE ys, hlen, h]

theorem toNatLE_replicate_zero (n : Nat) : toNatLE (List.replicate n 0) = 0 := by
  induction n with
  | zero => rfl
  | succ n ih => simp [replicate_succ, toNatLE, ih]

theorem ofNatLE_zero (n : Nat) : ofNatLE n 0 = List.replicate n 0 := by
  have := ofNatLE_toNatLE (List.replicate n 0)
  rwa [toNatLE_replicate_zero, length_replicate] at this

/-- A number that fits in fewer bytes has zeros in the others. -/
theorem ofNatLE_of_lt (h : n < 256 ^ a) :
    ofNatLE (a + b) n = ofNatLE a n ++ List.replicate b 0 := by
  rw [ofNatLE_add, Nat.div_eq_of_lt h, ofNatLE_zero]

theorem ofNatBE_of_lt (h : n < 256 ^ a) :
    ofNatBE (b + a) n = List.replicate b 0 ++ ofNatBE a n := by
  rw [ofNatBE, Nat.add_comm, ofNatLE_of_lt h, reverse_append, reverse_replicate, ofNatBE]

theorem toNatBE_zeros_append (n : Nat) (bs : Bytes) :
    toNatBE (List.replicate n 0 ++ bs) = toNatBE bs := by
  rw [toNatBE, reverse_append, reverse_replicate, toNatLE_append, toNatLE_replicate_zero,
    Nat.mul_zero, Nat.add_zero, toNatBE]

theorem ofNatBE_toNatBE (bs : Bytes) : ofNatBE bs.length (toNatBE bs) = bs := by
  rw [ofNatBE, toNatBE, ofNatLE_of_length length_reverse, reverse_reverse]

theorem ofText_inj {s t : String} (h : ofText s = ofText t) : s = t :=
  String.toByteArray_inj.1 (ByteArray.ext (Array.toList_inj.1 h))

end Bytes

namespace Word

theorem toList_ofBytes (h : bs.length = 32) : (ofBytes bs).toList = bs := by
  simp [ofBytes, Vector.toList, h]

theorem toList_ofNat (n : Nat) : (ofNat n).toList = Bytes.ofNatBE 32 n := by
  simp [ofNat, Vector.toList]

theorem toList_inj {v w : Word} (h : v.toList = w.toList) : v = w := Vector.toList_inj.1 h

theorem ofBytes_toList (w : Word) : ofBytes w.toList = w := toList_inj (toList_ofBytes (by simp))

end Word

namespace Machine

namespace Page

theorem set_comm (p : Page n) {i j : Nat} (h : i ≠ j) (b c : UInt8) :
    (p.set i b).set j c = (p.set j c).set i b := by
  cases p <;> simp only [set, Option.some.injEq] <;>
    · ext k hk
      simp only [Vector.getElem_setIfInBounds]
      by_cases hi : i = k <;> by_cases hj : j = k <;> simp_all

end Page

namespace Memory

variable (m : Memory)

theorem setByte_comm (h : a ≠ b) (x y : UInt8) :
    (m.setByte a x).setByte b y = (m.setByte b y).setByte a x := by
  unfold setByte
  simp only [Memory.mk.injEq, and_true]
  ext i hi1 hi2
  · simp
  · simp only [Array.getElem_modify]
    by_cases ha : a / pageSize = i <;> by_cases hb : b / pageSize = i
    · simp only [ha, hb, if_true]
      rw [Page.set_comm]
      intro hmod
      apply h
      rw [← Nat.div_add_mod a pageSize, ← Nat.div_add_mod b pageSize, ha, hb, hmod]
    all_goals simp [ha, hb]

theorem splice_append (a : Nat) (xs ys : Bytes) :
    m.splice a (xs ++ ys) = (m.splice a xs).splice (a + xs.length) ys := by
  induction xs generalizing m a with
  | nil => simp [splice]
  | cons x xs ih =>
    simp only [cons_append, splice, ih, length_cons]
    congr 1
    omega

theorem splice_setByte (h : b < a ∨ a + xs.length ≤ b) (y : UInt8) :
    (m.setByte b y).splice a xs = (m.splice a xs).setByte b y := by
  induction xs generalizing m a with
  | nil => rfl
  | cons x xs ih =>
    simp only [length_cons] at h
    rw [splice, splice, setByte_comm _ (by omega), ih _ (by omega)]

/-- Writes to separate places can be made in any order. -/
theorem splice_comm
    (h : a + xs.length ≤ b ∨ b + ys.length ≤ a) :
    (m.splice a xs).splice b ys = (m.splice b ys).splice a xs := by
  induction ys generalizing m b with
  | nil => rfl
  | cons y ys ih =>
    simp only [length_cons] at h
    rw [splice, splice, ← splice_setByte _ (by omega), ih _ (by omega)]

@[simp] theorem limit_splice (a : Nat) (bs : Bytes) : (m.splice a bs).limit = m.limit := by
  induction bs generalizing m a with
  | nil => rfl
  | cons b bs ih => rw [splice, ih]; rfl

@[simp] theorem pages_size_splice (a : Nat) (bs : Bytes) :
    (m.splice a bs).pages.size = m.pages.size := by
  induction bs generalizing m a with
  | nil => rfl
  | cons b bs ih => rw [splice, ih]; simp [setByte]

end Memory

end Machine

end MoveCodec
