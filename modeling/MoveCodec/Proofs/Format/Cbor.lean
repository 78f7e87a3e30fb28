import Mathlib.Data.List.Basic
import Mathlib.Tactic.SplitIfs
import MoveCodec.Format.Cbor
import MoveCodec.Proofs.Bytes

/-!
# Distinct items have distinct encodings

An encoding says where it ends: no encoding is a proper beginning of another, so items can be told
apart from what follows them.
-/
namespace MoveCodec.Cbor

open List Bytes

variable {m n : Nat} {xs ys : Bytes}

/-- What the first byte of a head says about its argument. -/
def info (arg : Nat) : Nat :=
  if arg < 24 then arg
  else if arg < UInt8.size then 24
  else if arg < UInt16.size then 25
  else if arg < UInt32.size then 26
  else if arg < UInt64.size then 27
  else 28

def argBytes (arg : Nat) : Bytes :=
  if arg < 24 then []
  else if arg < UInt8.size then ofNatBE 1 arg
  else if arg < UInt16.size then ofNatBE 2 arg
  else if arg < UInt32.size then ofNatBE 4 arg
  else if arg < UInt64.size then ofNatBE 8 arg
  else List.replicate arg 1 ++ [0]

theorem head_eq (major arg : Nat) :
    head major arg = UInt8.ofNat (32 * major + info arg) :: argBytes arg := by
  unfold head info argBytes
  split_ifs <;> rfl

theorem info_lt (arg : Nat) : info arg < 32 := by
  unfold info
  split_ifs <;> omega

theorem ofNatBE_append_inj {width : Nat} (hm : m < 256 ^ width)
    (hn : n < 256 ^ width) (h : ofNatBE width m ++ xs = ofNatBE width n ++ ys) :
    m = n ∧ xs = ys := by
  obtain ⟨hbytes, hrest⟩ := append_inj h (by simp)
  have hnum := congrArg toNatBE hbytes
  rw [toNatBE_ofNatBE, toNatBE_ofNatBE, Nat.pow_eq, Nat.mod_eq_of_lt hm,
    Nat.mod_eq_of_lt hn] at hnum
  exact ⟨hnum, hrest⟩

theorem unary_append_inj
    (h : List.replicate m (1 : UInt8) ++ 0 :: xs = List.replicate n 1 ++ 0 :: ys) :
    m = n ∧ xs = ys := by
  induction m generalizing n with
  | zero =>
    cases n with
    | zero => simpa using h
    | succ n => simp [replicate_succ] at h
  | succ m ih =>
    cases n with
    | zero => simp [replicate_succ] at h
    | succ n =>
      rw [replicate_succ, replicate_succ, cons_append, cons_append] at h
      obtain ⟨hcount, hrest⟩ := ih (List.cons.inj h).2
      exact ⟨by rw [hcount], hrest⟩

/-- Arguments whose first bytes agree are written in one width. -/
theorem argBytes_append_inj (hinfo : info m = info n)
    (h : argBytes m ++ xs = argBytes n ++ ys) : m = n ∧ xs = ys := by
  unfold info at hinfo
  unfold argBytes at h
  split_ifs at hinfo h
  all_goals first | omega | skip
  · exact ⟨hinfo, by simpa using h⟩
  iterate 4
    · exact ofNatBE_append_inj (by assumption) (by assumption) h
  · exact unary_append_inj (by simpa using h)

theorem head_append_inj {j k : Nat} (hj : j < 8) (hk : k < 8)
    (h : head j m ++ xs = head k n ++ ys) : j = k ∧ m = n ∧ xs = ys := by
  rw [head_eq, head_eq, cons_append, cons_append] at h
  obtain ⟨hlead, hrest⟩ := List.cons.inj h
  have hm := info_lt m
  have hn := info_lt n
  have hnum := congrArg UInt8.toNat hlead
  rw [UInt8.toNat_ofNat_of_lt' (show 32 * j + info m < UInt8.size by rw [UInt8.size]; omega),
    UInt8.toNat_ofNat_of_lt' (show 32 * k + info n < UInt8.size by rw [UInt8.size]; omega)] at hnum
  exact ⟨by omega, argBytes_append_inj (by omega) hrest⟩

namespace Item

def major : Item → Nat
  | .unsigned _ => 0
  | .bytes _ => 2
  | .text _ => 3
  | .array _ => 4
  | .map _ => 5
  | .true => 7

def arg : Item → Nat
  | .unsigned n => n
  | .bytes bs => bs.length
  | .text s => (ofText s).length
  | .array items => items.length
  | .map pairs => pairs.length
  | .true => 21

/-- What follows the head. -/
def body : Item → Bytes
  | .unsigned _ => []
  | .bytes bs => bs
  | .text s => ofText s
  | .array items => encodeAll items
  | .map pairs => encodePairs pairs
  | .true => []

theorem major_lt (i : Item) : i.major < 8 := by
  cases i <;> simp [major]

theorem encode_eq (i : Item) : encode i = head i.major i.arg ++ i.body := by
  cases i with
  | unsigned n => exact (append_nil _).symm
  | bytes | text | array | map => rw [encode, major, arg, body]
  | true => rfl

theorem parts_inj {i j : Item} (h : encode i ++ xs = encode j ++ ys) :
    i.major = j.major ∧ i.arg = j.arg ∧ i.body ++ xs = j.body ++ ys := by
  rw [encode_eq, encode_eq, append_assoc, append_assoc] at h
  exact head_append_inj i.major_lt j.major_lt h

end Item

mutual

/-- Items can be told apart from what follows them. -/
theorem encode_append_inj (i j : Item) {xs ys : Bytes} (h : encode i ++ xs = encode j ++ ys) :
    i = j ∧ xs = ys := by
  obtain ⟨hmajor, harg, hbody⟩ := Item.parts_inj h
  match i, j with
  | .unsigned m, .unsigned n => exact ⟨congrArg _ harg, hbody⟩
  | .bytes bs, .bytes cs =>
    obtain ⟨rfl, hrest⟩ := append_inj hbody harg
    exact ⟨rfl, hrest⟩
  | .text s, .text t =>
    obtain ⟨htext, hrest⟩ := append_inj hbody harg
    exact ⟨congrArg _ (ofText_inj htext), hrest⟩
  | .array items, .array items' =>
    obtain ⟨rfl, hrest⟩ := encodeAll_append_inj items items' harg hbody
    exact ⟨rfl, hrest⟩
  | .map pairs, .map pairs' =>
    obtain ⟨rfl, hrest⟩ := encodePairs_append_inj pairs pairs' harg hbody
    exact ⟨rfl, hrest⟩
  | .true, .true => exact ⟨rfl, hbody⟩

theorem encodeAll_append_inj (is js : List Item) {xs ys : Bytes} (hlen : is.length = js.length)
    (h : encodeAll is ++ xs = encodeAll js ++ ys) : is = js ∧ xs = ys := by
  match is, js with
  | [], [] => exact ⟨rfl, h⟩
  | i :: is, j :: js =>
    rw [encodeAll, encodeAll, append_assoc, append_assoc] at h
    obtain ⟨rfl, htail⟩ := encode_append_inj i j h
    obtain ⟨rfl, hrest⟩ := encodeAll_append_inj is js (Nat.succ.inj hlen) htail
    exact ⟨rfl, hrest⟩

theorem encodePairs_append_inj (ps qs : List (Nat × Item)) {xs ys : Bytes}
    (hlen : ps.length = qs.length) (h : encodePairs ps ++ xs = encodePairs qs ++ ys) :
    ps = qs ∧ xs = ys := by
  match ps, qs with
  | [], [] => exact ⟨rfl, h⟩
  | (k, i) :: ps, (l, j) :: qs =>
    simp only [encodePairs, append_assoc] at h
    obtain ⟨-, rfl, hpair⟩ := head_append_inj (by decide) (by decide) h
    obtain ⟨rfl, htail⟩ := encode_append_inj i j hpair
    obtain ⟨rfl, hrest⟩ := encodePairs_append_inj ps qs (Nat.succ.inj hlen) htail
    exact ⟨rfl, hrest⟩

end

theorem encode_injective : Function.Injective encode := fun i j h =>
  (encode_append_inj i j (congrArg (· ++ []) h)).1

end MoveCodec.Cbor
