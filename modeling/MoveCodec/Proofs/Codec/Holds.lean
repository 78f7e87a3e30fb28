import MoveCodec.Proofs.Machine.Heap
import MoveCodec.Proofs.Wire.Form

/-!
# Values in memory

`Form.Holds` relates a register and the contents of memory to the value they stand for, and to the
blocks of memory that the value takes up. Small values are held in the register, others behind a
pointer. A value that lies `tight` has in addition what the decoder guarantees: no spare capacity
in vectors and no garbage behind a fixed byte string.
-/
namespace MoveCodec

open Machine

/-- A part of memory. -/
structure Block where
  start : Nat
  size : Nat
  deriving DecidableEq

namespace Block

def stop (b : Block) : Nat := b.start + b.size

def Apart (a b : Block) : Prop := a.stop ≤ b.start ∨ b.stop ≤ a.start

end Block

/-- The number that `n` bytes spell. -/
def number (f : Nat → UInt8) (a n : Nat) : Nat := Bytes.toNatLE (view f a n)

/-- The value that stands at an address. -/
def slotAt (f : Nat → UInt8) (wide : Bool) (a : Nat) : Value :=
  if wide then .i64 (UInt64.ofNat (number f a 8)) else .i32 (UInt32.ofNat (number f a 4))

/-- Values that stand one after another. -/
def Row {α : Type} (f : Nat → UInt8) (wide : Bool) (holds : Value → α → List Block → Prop)
    (a : Nat) : List α → List Block → Prop
  | [], bs => bs = []
  | x :: xs, bs => ∃ here rest, holds (slotAt f wide a) x here ∧
      Row f wide holds (a + slotSize wide) xs rest ∧ bs = here ++ rest

/-- A vector: its length, its capacity and its elements. -/
def VectorAt {α : Type} (tight : Bool) (f : Nat → UInt8) (wide : Bool)
    (holds : Value → α → List Block → Prop) (a : Nat) (xs : List α) (bs : List Block) : Prop :=
  number f a 4 = xs.length ∧ (tight → number f (a + 4) 4 = xs.length) ∧
    ∃ rest, Row f wide holds (a + 8) xs rest ∧
      bs = ⟨a, 8 + xs.length * slotSize wide⟩ :: rest

/-- An integer: small ones are held in a register. -/
def IntWidth.Holds (f : Nat → UInt8) (w : IntWidth) (v : Value) (n : Nat) (bs : List Block) : Prop :=
  match w with
  | .w8 | .w16 | .w32 => v = .i32 (UInt32.ofNat n) ∧ bs = []
  | .w64 => v = .i64 (UInt64.ofNat n) ∧ bs = []
  | w => ∃ p : UInt32, v = .i32 p ∧ number f p.toNat w.bytes = n ∧ bs = [⟨p.toNat, w.bytes⟩]

/-- A byte string behind a pointer. -/
def BytesAt (f : Nat → UInt8) (v : Value) (x : Bytes) (bs : List Block) : Prop :=
  ∃ p : UInt32, v = .i32 p ∧ view f p.toNat x.length = x ∧ bs = [⟨p.toNat, x.length⟩]

def CellAt (f : Nat → UInt8) (wide : Bool) (holds : Value → List Block → Prop) (v : Value)
    (bs : List Block) : Prop :=
  ∃ (p : UInt32) (rest : List Block), v = .i32 p ∧ holds (slotAt f wide p.toNat) rest ∧
    bs = ⟨p.toNat, slotSize wide⟩ :: rest

mutual

/-- The register `v` stands for the value `x`, which takes up the blocks `bs`. -/
def Form.Holds (tight : Bool) (f : Nat → UInt8) :
    (form : Form) → (v : Value) → (x : form.Val) → (bs : List Block) → Prop
  | .bool, v, (b : Bool), bs => v = .i32 (if b then 1 else 0) ∧ bs = []
  | .int w, v, (x : BitVec _), bs => w.Holds f v x.toNat bs
  | .address, v, (x : Vector UInt8 20), bs => BytesAt f v (List.replicate 12 0 ++ x.toList) bs
  | .enum _, v, (i : Fin _), bs =>
    CellAt f false (fun v bs => v = .i32 (UInt32.ofNat i) ∧ i.val < UInt32.size ∧ bs = []) v bs
  | .string, v, (s : Bytes), bs =>
    CellAt f false (fun v bs => ∃ p : UInt32, v = .i32 p ∧
      VectorAt tight f false (fun v (b : UInt8) bs => v = .i32 b.toUInt32 ∧ bs = []) p.toNat s bs)
      v bs
  | .bytes n, v, (x : Vector UInt8 n), bs =>
    BytesAt f v (x.toList ++ if tight then List.replicate (32 - n) 0 else []) bs
  | .uid, v, (w : Word), bs =>
    CellAt f false (fun v bs => CellAt f false (fun v bs => BytesAt f v w.toList bs) v bs) v bs
  | .id, v, (w : Word), bs => CellAt f false (fun v bs => BytesAt f v w.toList bs) v bs
  | .vector e, v, (xs : List e.Val), bs =>
    ∃ p : UInt32, v = .i32 p ∧ VectorAt tight f e.wide (e.Holds tight f) p.toNat xs bs
  | .struct fields, v, x, bs =>
    ∃ (p : UInt32) (rest : List Block), v = .i32 p ∧ fields.Holds tight f p.toNat x rest ∧
      bs = ⟨p.toNat, fields.record⟩ :: rest

/-- The record at `a` holds the values `x`, which take up the blocks `bs` beside the record. -/
def Forms.Holds (tight : Bool) (f : Nat → UInt8) :
    (fs : Forms) → (a : Nat) → (x : fs.Val) → (bs : List Block) → Prop
  | .nil, _, _, bs => bs = []
  | .cons boxed form fs, a, (x : form.Val × fs.Val), bs =>
    ∃ here rest, (if boxed then CellAt f form.wide (fun v bs => form.Holds tight f v x.1 bs)
        (slotAt f false a) here
      else form.Holds tight f (slotAt f form.wide a) x.1 here) ∧
    fs.Holds tight f (a + form.place boxed) x.2 rest ∧ bs = here ++ rest

end

/-- The blocks end at or before `H`. -/
def Below (H : Nat) (bs : List Block) : Prop := ∀ b ∈ bs, b.stop ≤ H

section

variable {H : Nat} {b : Block} {bs cs : List Block}

@[simp] theorem below_nil : Below H [] := by simp [Below]

@[simp] theorem below_cons : Below H (b :: bs) ↔ b.start + b.size ≤ H ∧ Below H bs := by
  simp [Below, Block.stop]

@[simp] theorem below_append : Below H (bs ++ cs) ↔ Below H bs ∧ Below H cs := by
  simp only [Below, List.mem_append]
  exact ⟨fun h => ⟨fun b hb => h b (.inl hb), fun b hb => h b (.inr hb)⟩,
    fun h b hb => hb.elim (h.1 b) (h.2 b)⟩

theorem Below.mono {K : Nat} (h : Below H bs) (hle : H ≤ K) : Below K bs :=
  fun b hb => (h b hb).trans hle

end

/-- The blocks lie apart from the `n` bytes at `w`. -/
def Aside (w n : Nat) (bs : List Block) : Prop :=
  ∀ b ∈ bs, ∀ i, b.start ≤ i → i < b.stop → i < w ∨ w + n ≤ i

section

variable {w n : Nat} {b : Block} {bs cs : List Block}

@[simp] theorem aside_nil : Aside w n [] := nofun

theorem aside_cons : Aside w n (b :: bs) ↔ Aside w n [b] ∧ Aside w n bs := by
  simp [Aside]

theorem aside_append : Aside w n (bs ++ cs) ↔ Aside w n bs ∧ Aside w n cs :=
  List.forall_mem_append

/-- Blocks are apart from a part of what they are apart from. -/
theorem Aside.part {w' n' : Nat} (h : Aside w n bs) (hlo : w ≤ w') (hhi : w' + n' ≤ w + n) :
    Aside w' n' bs := fun b hb i hstart hstop => by
  have := h b hb i hstart hstop
  omega

/-- So is a part of a block. -/
theorem Aside.sub {c : Block} (h : Aside w n [b]) (hlo : b.start ≤ c.start)
    (hhi : c.stop ≤ b.stop) : Aside w n [c] := by
  rintro _ (_ | _) i hstart hstop
  · exact h b (by simp) i (by omega) (by omega)
  · contradiction

theorem Below.aside (h : Below w bs) : Aside w n bs :=
  fun b hb _ _ hstop => .inl (hstop.trans_le (h b hb))

end

/-! ## Memory that changes elsewhere -/

/-- Contents that agree on some blocks. -/
def Same (f g : Nat → UInt8) (bs : List Block) : Prop :=
  ∀ b ∈ bs, ∀ i, b.start ≤ i → i < b.stop → f i = g i

section

variable {f g : Nat → UInt8} {a n : Nat} {bs cs : List Block} {b : Block} {v : Value}

theorem same_cons : Same f g (b :: bs) ↔ Same f g [b] ∧ Same f g bs := by
  simp [Same]

theorem same_append : Same f g (bs ++ cs) ↔ Same f g bs ∧ Same f g cs := by
  simp only [Same, List.mem_append]
  exact ⟨fun h => ⟨fun b hb => h b (.inl hb), fun b hb => h b (.inr hb)⟩,
    fun h b hb => hb.elim (h.1 b) (h.2 b)⟩

/-- A part of a block on which contents agree. -/
theorem Same.part (h : Same f g [b]) (h₁ : b.start ≤ a) (h₂ : a + n ≤ b.stop) :
    view f a n = view g a n :=
  view_congr fun i hi => h b (by simp) (a + i) (by omega) (by omega)

theorem Same.number_eq (h : Same f g [b]) (h₁ : b.start ≤ a) (h₂ : a + n ≤ b.stop) :
    number f a n = number g a n := by
  rw [number, number, h.part h₁ h₂]

theorem Same.slotAt_eq (wide : Bool) (h : Same f g [b]) (h₁ : b.start ≤ a)
    (h₂ : a + slotSize wide ≤ b.stop) : slotAt f wide a = slotAt g wide a := by
  cases wide with
  | true =>
    have hn : number f a 8 = number g a 8 := h.number_eq h₁ h₂
    simp [slotAt, hn]
  | false =>
    have hn : number f a 4 = number g a 4 := h.number_eq h₁ h₂
    simp [slotAt, hn]

/-- Contents that agree on a block agree on what lies inside it. -/
theorem Same.sub {c : Block} (h : Same f g [b]) (h₁ : b.start ≤ c.start) (h₂ : c.stop ≤ b.stop) :
    Same f g [c] := by
  intro d hd i hi hlt
  rw [List.mem_singleton] at hd
  subst hd
  exact h b (by simp) i (by omega) (by omega)

/-- A write leaves the blocks apart from it as they are. -/
theorem Aside.same {w : Nat} {xs : Bytes} (h : Aside w n bs) (hlen : xs.length ≤ n) :
    Same f (patch f w xs) bs := fun b hb i hstart hstop => by
  have := h b hb i hstart hstop
  rw [patch_outside (by omega)]

theorem Same.trans {k : Nat → UInt8} (h : Same f g bs) (h' : Same g k bs) : Same f k bs :=
  fun b hb i hstart hstop => (h b hb i hstart hstop).trans (h' b hb i hstart hstop)

theorem Row.congr {α : Type} {wide : Bool} {holds holds' : Value → α → List Block → Prop}
    {xs : List α} (h : Row f wide holds a xs bs)
    (hrow : Same f g [⟨a, xs.length * slotSize wide⟩]) (hs : Same f g bs)
    (helem : ∀ v x here, Same f g here → holds v x here → holds' v x here) :
    Row g wide holds' a xs bs := by
  induction xs generalizing a bs with
  | nil => exact h
  | cons x xs ih =>
    obtain ⟨here, rest, hx, hxs, rfl⟩ := h
    rw [same_append] at hs
    have hlen : (x :: xs).length * slotSize wide = slotSize wide + xs.length * slotSize wide := by
      rw [List.length_cons, Nat.succ_mul, Nat.add_comm]
    rw [hlen] at hrow
    have hslot : slotAt f wide a = slotAt g wide a :=
      hrow.slotAt_eq wide le_rfl (by simp only [Block.stop]; omega)
    refine ⟨here, rest, ?_, ih hxs (hrow.sub ?_ ?_) hs.2, rfl⟩
    · rw [← hslot]
      exact helem _ x here hs.1 hx
    · simp
    · simp only [Block.stop]
      omega

theorem VectorAt.congr {α : Type} {tight wide : Bool} {holds holds' : Value → α → List Block → Prop}
    {xs : List α} (h : VectorAt tight f wide holds a xs bs) (hs : Same f g bs)
    (helem : ∀ v x here, Same f g here → holds v x here → holds' v x here) :
    VectorAt tight g wide holds' a xs bs := by
  obtain ⟨hlen, hcap, rest, hrow, rfl⟩ := h
  rw [same_cons] at hs
  refine ⟨?_, fun ht => ?_, rest, hrow.congr (hs.1.sub ?_ ?_) hs.2 helem, rfl⟩
  · rw [← hlen, hs.1.number_eq le_rfl (by simp only [Block.stop]; omega)]
  · rw [← hcap ht, hs.1.number_eq (by simp) (by simp only [Block.stop]; omega)]
  · simp
  · simp only [Block.stop]
    omega

theorem CellAt.congr {wide : Bool} {holds holds' : Value → List Block → Prop}
    (h : CellAt f wide holds v bs) (hs : Same f g bs)
    (hcell : ∀ v here, Same f g here → holds v here → holds' v here) :
    CellAt g wide holds' v bs := by
  obtain ⟨p, rest, rfl, hrest, rfl⟩ := h
  rw [same_cons] at hs
  refine ⟨p, rest, rfl, ?_, rfl⟩
  rw [← hs.1.slotAt_eq wide le_rfl (by simp [Block.stop])]
  exact hcell _ rest hs.2 hrest

theorem BytesAt.congr {x : Bytes} (h : BytesAt f v x bs) (hs : Same f g bs) : BytesAt g v x bs := by
  obtain ⟨p, rfl, hview, rfl⟩ := h
  refine ⟨p, rfl, ?_, rfl⟩
  rw [← hs.part le_rfl le_rfl]
  exact hview

theorem IntWidth.Holds.congr {w : IntWidth} {k : Nat} (h : w.Holds f v k bs) (hs : Same f g bs) :
    w.Holds g v k bs := by
  cases w with
  | w8 | w16 | w32 | w64 => exact h
  | w128 | w256 =>
    obtain ⟨p, rfl, hnum, rfl⟩ := h
    exact ⟨p, rfl, by rw [← hnum, hs.number_eq le_rfl le_rfl], rfl⟩

end

mutual

/-- A value is held by any memory with the same contents in its blocks. -/
theorem Form.Holds.congr {tight : Bool} {f g : Nat → UInt8} : ∀ {form : Form} {v : Value}
    {x : form.Val} {bs : List Block}, form.Holds tight f v x bs → Same f g bs →
      form.Holds tight g v x bs
  | .bool, _, _, _, h, _ => h
  | .int _, _, _, _, h, hs => IntWidth.Holds.congr h hs
  | .address, _, _, _, h, hs => BytesAt.congr h hs
  | .enum _, _, _, _, h, hs => CellAt.congr h hs fun _ _ _ h => h
  | .string, _, _, _, h, hs => CellAt.congr h hs fun _ _ hs ⟨p, hv, h⟩ =>
      ⟨p, hv, VectorAt.congr h hs fun _ _ _ _ h => h⟩
  | .bytes _, _, _, _, h, hs => BytesAt.congr h hs
  | .uid, _, _, _, h, hs => CellAt.congr h hs fun _ _ hs h =>
      CellAt.congr h hs fun _ _ hs h => BytesAt.congr h hs
  | .id, _, _, _, h, hs => CellAt.congr h hs fun _ _ hs h => BytesAt.congr h hs
  | .vector e, _, _, _, ⟨p, hv, h⟩, hs =>
    ⟨p, hv, VectorAt.congr h hs fun _ _ _ hs h => Form.Holds.congr h hs⟩
  | .struct fields, _, _, _, ⟨p, rest, hv, h, hbs⟩, hs => by
    rw [hbs, same_cons] at hs
    exact ⟨p, rest, hv, Forms.Holds.congr h hs.1 hs.2, hbs⟩

theorem Forms.Holds.congr {tight : Bool} {f g : Nat → UInt8} : ∀ {fs : Forms} {a : Nat}
    {x : fs.Val} {bs : List Block}, fs.Holds tight f a x bs → Same f g [⟨a, fs.record⟩] →
      Same f g bs → fs.Holds tight g a x bs
  | .nil, _, _, _, h, _, _ => h
  | .cons boxed form fs, a, x, _, ⟨here, rest, hx, hxs, hbs⟩, hrec, hs => by
    rw [hbs, same_append] at hs
    have hplace : form.place boxed ≤ (Forms.cons boxed form fs).record := by simp [Forms.record]
    refine ⟨here, rest, ?_, Forms.Holds.congr hxs (hrec.sub ?_ ?_) hs.2, hbs⟩
    · cases boxed with
      | true =>
        rw [if_pos rfl] at hx ⊢
        rw [← hrec.slotAt_eq false le_rfl (by simpa [Block.stop, Form.place, slotSize] using hplace)]
        exact CellAt.congr hx hs.1 fun _ _ hs h => Form.Holds.congr h hs
      | false =>
        rw [if_neg Bool.false_ne_true] at hx ⊢
        rw [← hrec.slotAt_eq form.wide le_rfl
          (by simpa [Block.stop, Form.place, Form.slot] using hplace)]
        exact Form.Holds.congr hx hs.1
    · simp
    · simp only [Block.stop, Forms.record]
      omega

end

end MoveCodec
