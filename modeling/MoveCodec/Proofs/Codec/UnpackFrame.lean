import MoveCodec.Proofs.Codec.Generators
import MoveCodec.Proofs.Codec.HeapGrowth
import MoveCodec.Proofs.Codec.PackLimits

/-!
# Unpackers leave alone what is there

Whatever bytes it is given, an unpacker traps or comes to an end, and changes nothing below the end
of the heap. The number of elements it reads is bounded, so no address among the slots of a new
vector wraps.
-/
namespace MoveCodec.Codec

open Machine Machine.Compute

variable {H : Nat}

theorem tame_requireZero (n : Nat) (a : UInt32) : Tame H (requireZero n a) := by
  induction n generalizing a with
  | zero => exact .pure trivial
  | succ n ih => exact ((tame_read _ _).map _).then fun _ => (tame_trapWhen _).then fun _ => ih _

theorem tame_loadWord (src : UInt32) (width : Nat) : Tame H (loadWord src width) :=
  (tame_look _).then fun _ => (tame_requireZero _ _).then fun _ => ((tame_read _ _).map _).map _

theorem tame_storeSlot {a off : UInt32} (wide : Bool) (v : Value) (h : H ≤ a.toNat + off.toNat) :
    Tame H (storeSlot wide a off v) := by
  unfold storeSlot
  split
  · exact tame_write _ h
  · exact tame_write _ h

theorem tame_follow (r base : UInt32) : Tame H (follow r base) :=
  (tame_loadWord _ _).then fun _ => (tame_trapWhen _).then fun _ =>
    tame_state.then fun _ => (tame_trapWhen _).then fun _ =>
    tame_state.then fun _ => (tame_trapWhen _).then fun _ =>
    (tame_look _).then fun _ => .pure trivial

theorem tame_lengthAt (p : UInt32) : Tame H (lengthAt p) fun n => n.toNat ≤ maxElements.toNat := by
  refine (tame_loadWord _ _).then fun n => (tame_trapWhen _).bind fun _ hle => .pure ?_
  rw [decide_eq_false_iff_not, UInt32.lt_iff_toNat_lt] at hle
  omega

/-- The number of slots of a vector can be written in 32 bits, with those before them. -/
theorem vector_fits {n : UInt32} (wide : Bool) (hn : n.toNat ≤ maxElements.toNat) :
    8 + n.toNat * (UInt32.ofNat (slotSize wide)).toNat < 4294967296 := by
  have hle : slotSize wide ≤ 8 := by cases wide <;> decide
  have hmax : maxElements.toNat = 67108864 := rfl
  have hmul : n.toNat * slotSize wide ≤ 67108864 * 8 := Nat.mul_le_mul (hmax ▸ hn) hle
  rw [toNat_slotWord]
  omega

theorem tame_newVector {n : UInt32} (wide : Bool) (hn : n.toNat ≤ maxElements.toNat) :
    Tame H (newVector n (UInt32.ofNat (slotSize wide))) fun vec =>
      H ≤ vec.toNat ∧ vec.toNat + 8 + n.toNat * slotSize wide < 4294967296 := by
  refine (tame_allocate _).bind fun vec hvec => (tame_write _ (by omega)).then fun _ =>
    (tame_write _ (by omega)).then fun _ => .pure ⟨hvec.1, ?_⟩
  have hfit := vector_fits wide hn
  have hmul : (n * UInt32.ofNat (slotSize wide)).toNat = n.toNat * (UInt32.ofNat (slotSize wide)).toNat :=
    toNat_mul_of_lt (by omega)
  have hsize : (8 + n * UInt32.ofNat (slotSize wide)).toNat = 8 + (n * UInt32.ofNat (slotSize wide)).toNat :=
    toNat_add_of_lt (by rw [hmul]; exact hfit)
  rw [toNat_slotWord] at hmul
  omega

/-- The slots of a new vector are filled. -/
theorem tame_fill {n vec : UInt32} {wide : Bool} {elem : UInt32 → Compute Value}
    (helem : ∀ i, Tame H (elem i))
    (hvec : H ≤ vec.toNat ∧ vec.toNat + 8 + n.toNat * slotSize wide < 4294967296) :
    Tame H (upTo (fun i => elem i >>=
      storeSlot wide (vec + i * UInt32.ofNat (slotSize wide)) 8) n.toNat 0) := by
  refine tame_upTo fun k hk => (helem _).then fun _ => tame_storeSlot _ _ ?_
  have hmul : k * slotSize wide ≤ n.toNat * slotSize wide := Nat.mul_le_mul_right _ hk.le
  rw [UInt32.zero_add, toNat_index _ _ _ (by omega)]
  omega

theorem tame_unpackCopy (r : UInt32) : Tame H (unpackCopy r) :=
  (tame_allocate _).bind fun _ hp => (tame_copy _ _ hp.1).then fun _ => .pure trivial

theorem tame_newCell (v : UInt32) : Tame H (newCell v) :=
  (tame_allocate _).bind fun _ hp => (tame_write _ (by omega)).then fun _ => .pure trivial

/-- The characters of a text are elements like others. -/
theorem copyChars_eq (vec p : UInt32) :
    (fun i => do store32 (vec + i * 4) 8 (← load8 (p + i) 32) : UInt32 → Compute Unit) =
      fun j => (Value.i32 <$> load8 (p + j) 32) >>=
        storeSlot false (vec + j * UInt32.ofNat (slotSize false)) 8 := by
  funext j
  rw [map_eq_pure_bind, bind_assoc]
  rfl

theorem tame_unpackString (r base : UInt32) : Tame H (unpackString r base) := by
  refine (tame_follow _ _).then fun _ => (tame_lengthAt _).bind fun _ hn =>
    (tame_newVector false hn).bind fun _ hvec => (tame_look _).then fun _ =>
    Tame.then (P := fun _ => True) ?_ fun _ => tame_newCell _
  rw [copyChars_eq]
  exact tame_fill (fun _ => ((tame_read _ _).map _).map _) hvec

theorem tame_unpackInt (width : IntWidth) (r base : UInt32) :
    Tame H (unpacking (.int width) r base) := by
  cases width <;> rw [unpacking]
  case w8 | w16 | w32 => exact (tame_loadWord _ _).map _
  case w64 =>
    exact (tame_look _).then fun _ => (tame_requireZero _ _).then fun _ =>
      ((tame_read _ _).map _).then fun _ => .pure trivial
  case w128 =>
    exact (tame_look _).then fun _ => (tame_requireZero _ _).then fun _ =>
      (tame_allocate _).bind fun _ hp => (tame_reverseBlock _ _ hp.1).then fun _ => .pure trivial
  case w256 =>
    exact (tame_look _).then fun _ => (tame_allocate _).bind fun _ hp =>
      (tame_reverseBlock _ _ hp.1).then fun _ => .pure trivial

mutual

/-- Only values with a unique identifier inside cannot be read from call data at all. -/
theorem tame_unpacking : ∀ (form : Form) (r base : UInt32), form.decodable = true →
    Tame H (unpacking form r base)
  | .bool, _, _, _ => by
    rw [unpacking]
    exact (tame_loadWord _ _).then fun _ => (tame_trapWhen _).then fun _ => .pure trivial
  | .int width, r, base, _ => tame_unpackInt width r base
  | .address, _, _, _ | .bytes _, _, _, _ => by
    rw [unpacking]
    exact (tame_look _).then fun _ => (tame_requireZero _ _).then fun _ => (tame_unpackCopy _).map _
  | .enum _, _, _, _ => by
    rw [unpacking]
    exact (tame_loadWord _ _).then fun _ => (tame_trapWhen _).then fun _ => (tame_newCell _).map _
  | .string, _, _, _ => by
    rw [unpacking]
    exact (tame_unpackString _ _).map _
  | .uid, _, _, h => by
    rw [Form.decodable] at h
    cases h
  | .id, _, _, _ => by
    rw [unpacking]
    exact (tame_look _).then fun _ => (tame_unpackCopy _).then fun _ => (tame_newCell _).map _
  | .vector e, _, _, h => by
    rw [Form.decodable] at h
    rw [unpacking]
    exact (tame_follow _ _).then fun _ => (tame_lengthAt _).bind fun _ hn =>
      (tame_newVector e.wide hn).bind fun _ hvec =>
      (tame_fill (fun _ => tame_unpacking e _ _ h) hvec).then fun _ => .pure trivial
  | .struct fields, _, _, h => by
    rw [Form.decodable] at h
    rw [unpacking]
    split
    · exact (tame_follow _ _).then fun _ => (tame_allocate _).bind fun _ hp =>
        (tame_unpackingAll fields _ _ _ _ _ h hp.1).then fun _ => .pure trivial
    · exact (tame_allocate _).bind fun _ hp =>
        (tame_unpackingAll fields _ _ _ _ _ h hp.1).then fun _ => .pure trivial

theorem tame_unpackingAll : ∀ (fs : Forms) (rec r base place offset : UInt32),
    fs.decodable = true → H ≤ rec.toNat → Tame H (unpackingAll fs rec r base place offset)
  | .nil, _, _, _, _, _, _, _ => by
    rw [unpackingAll]
    exact .pure trivial
  | .cons _ form fs, _, _, _, _, _, h, hrec => by
    rw [Forms.decodable, Bool.and_eq_true] at h
    rw [unpackingAll]
    exact (tame_unpacking form _ _ h.1).then fun _ => (tame_storeSlot _ _ (by omega)).then
      fun _ => tame_unpackingAll fs _ _ _ _ _ h.2 hrec

end

theorem tame_storeParam {rec : UInt32} (boxed wide : Bool) (offset : UInt32) (v : Value)
    (hrec : H ≤ rec.toNat) : Tame H (storeParam boxed wide rec offset v) := by
  unfold storeParam
  split
  · exact (tame_allocate _).bind fun _ hp => (tame_storeSlot _ _ (by omega)).then fun _ =>
      tame_write _ (by omega)
  · exact tame_storeSlot _ _ (by omega)

end MoveCodec.Codec
