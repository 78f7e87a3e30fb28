import MoveCodec.Codec.Unpack
import MoveCodec.Proofs.Prelude.Routines
import MoveCodec.Proofs.Wire.Form

/-!
# Packing and unpacking as computations

What the generated packers and unpackers do, as computations by recursion on the form of the type.
The arithmetic is that of the code: addresses and sizes wrap.
-/
namespace MoveCodec

open Machine

namespace Machine

def Value.word : Value → UInt32
  | .i32 v => v
  | .i64 v => v.toUInt32

def Value.long : Value → UInt64
  | .i32 v => v.toUInt64
  | .i64 v => v

namespace Compute

def loadSlot (wide : Bool) (a offset : UInt32) : Compute Value :=
  if wide then .i64 <$> load64 a offset else .i32 <$> load32 a offset

def loadPart (boxed wide : Bool) (rec offset : UInt32) : Compute Value :=
  if boxed then load32 rec offset >>= fun p => loadSlot wide p 0 else loadSlot wide rec offset

/-- Stores a register. -/
def storeSlot (wide : Bool) (a offset : UInt32) (v : Value) : Compute Unit :=
  if wide then store64 a offset v.long else store32 a offset v.word

/-- Writes a number as a word, most significant byte first. -/
def storeWord (dst value : UInt32) : Compute Unit := do
  zero dst 28
  store32 dst 28 (swap32 value)

/-- Reads a word that must fit in `width` bytes. -/
def loadWord (src : UInt32) (width : Nat) : Compute UInt32 := do
  look ⟨src.toNat, 32, false⟩
  requireZero (32 - width) src
  swap32 <$> load32 src 28

end Compute

end Machine

open Compute

/-- Bytes among the heads, as the code computes them. -/
def Form.headWord (f : Form) : UInt32 := UInt32.ofNat f.head

/-- Bytes of a register, as the code computes them. -/
def Form.slotWord (f : Form) : UInt32 := UInt32.ofNat f.slot

/-! ## Packing -/

namespace Codec

/-- Writes the distance from `base` to `tail` as the head at `w`. -/
def packOffset (tail base w : UInt32) : Compute Unit := storeWord w (tail - base)

/-- Packs a text: its length and its bytes, filled with zeros to whole words. -/
def packString (v w base : UInt32) : Compute Unit := do
  let vec ← load32 v 0
  let n ← load32 vec 0
  let whole := (n + 31) &&& 0xffffffe0
  let tail ← allocate (32 + whole)
  packOffset tail base w
  storeWord tail n
  upTo (fun i => do store8 (tail + i) 32 (← load8 (vec + i * 4) 8)) n.toNat 0
  zero (tail + n + 32) (whole - n)

/-- Copies `n` bytes and fills the word with zeros. -/
def packBytes (n p w : UInt32) : Compute Unit := do
  copy w p n
  if n = 32 then pure () else zero (w + n) (32 - n)

mutual

/-- What the packer of a form does: the head of the value goes to `w`, offsets count from `base`. -/
def packing : (form : Form) → (v : Value) → (w base : UInt32) → Compute Unit
  | .bool, v, w, _ => storeWord w v.word
  | .int width, v, w, _ =>
    match width with
    | .w8 | .w16 | .w32 => storeWord w v.word
    | .w64 => do
      zero w 24
      store64 w 24 (swap64 v.long)
    | .w128 => do
      zero w 16
      reverseBlock 16 v.word (w + 16)
    | .w256 => reverseBlock 32 v.word w
  | .address, v, w, _ => copy w v.word 32
  | .enum _, v, w, _ => do storeWord w (← load32 v.word 0)
  | .string, v, w, base => packString v.word w base
  | .bytes n, v, w, _ => packBytes (UInt32.ofNat n) v.word w
  | .uid, v, w, _ => do packBytes 32 (← load32 (← load32 v.word 0) 0) w
  | .id, v, w, _ => do packBytes 32 (← load32 v.word 0) w
  | .vector e, v, w, base => do
    let n ← load32 v.word 0
    let tail ← allocate (32 + n * e.headWord)
    packOffset tail base w
    storeWord tail n
    upTo (fun i => do
      let x ← loadSlot e.wide (v.word + i * e.slotWord) 8
      packing e x (tail + 32 + i * e.headWord) (tail + 32)) n.toNat 0
  | .struct fields, v, w, base =>
    if fields.dynamic then do
      let tail ← allocate (UInt32.ofNat fields.heads)
      packOffset tail base w
      packingAll fields v.word tail tail 0 0
    else packingAll fields v.word w base 0 0

/-- Packs the parts of the record `rec` from `offset` on to the heads from `w + place` on. -/
def packingAll : (fs : Forms) → (rec w base place offset : UInt32) → Compute Unit
  | .nil, _, _, _, _, _ => pure ()
  | .cons boxed f fs, rec, w, base, place, offset => do
    let x ← loadPart boxed f.wide rec offset
    packing f x (w + place) base
    packingAll fs rec w base (place + f.headWord) (offset + UInt32.ofNat (f.place boxed))

end

theorem packing_bool (v : Value) (w base : UInt32) :
    packing .bool v w base = storeWord w v.word := by
  rw [packing]

def packingTuple (fs : Forms) (rec : UInt32) : Compute UInt32 := do
  let out ← allocate (4 + UInt32.ofNat fs.heads)
  packingAll fs rec (out + 4) (out + 4) 0 0
  store32 out 0 ((← state).top - out - 4)
  return out

/-! ## Unpacking -/

/-- Follows the offset at `r`: it must not wrap, and a whole word must lie between the tail and the
end of the call data. -/
def follow (r base : UInt32) : Compute UInt32 := do
  let p := (← loadWord r 4) + base
  trapWhen (p < base)
  trapWhen ((← state).stop < p)
  trapWhen ((← state).stop - p < 32)
  look ⟨p.toNat, 32, true⟩
  return p

/-- The length at a tail; it must not exceed the bound. -/
def lengthAt (p : UInt32) : Compute UInt32 := do
  let n ← loadWord p 4
  trapWhen (maxElements < n)
  return n

/-- A new vector of `n` elements. -/
def newVector (n slot : UInt32) : Compute UInt32 := do
  let vec ← allocate (8 + n * slot)
  store32 vec 0 n
  store32 vec 4 n
  return vec

/-- Copies a word to a new place. -/
def unpackCopy (r : UInt32) : Compute UInt32 := do
  let p ← allocate 32
  copy p r 32
  return p

def newCell (v : UInt32) : Compute UInt32 := do
  let p ← allocate 4
  store32 p 0 v
  return p

def unpackString (r base : UInt32) : Compute UInt32 := do
  let p ← follow r base
  let n ← lengthAt p
  let vec ← newVector n 4
  look ⟨p.toNat + 32, n.toNat, false⟩
  upTo (fun i => do store32 (vec + i * 4) 8 (← load8 (p + i) 32)) n.toNat 0
  newCell vec

mutual

/-- What the unpacker of a form does: it gives the value whose head is at `r`. -/
def unpacking : (form : Form) → (r base : UInt32) → Compute Value
  | .bool, r, _ => do
    let x ← loadWord r 1
    trapWhen (1 < x)
    return .i32 x
  | .int width, r, _ =>
    match width with
    | .w8 => .i32 <$> loadWord r 1
    | .w16 => .i32 <$> loadWord r 2
    | .w32 => .i32 <$> loadWord r 4
    | .w64 => do
      look ⟨r.toNat, 32, false⟩
      requireZero 24 r
      return .i64 (swap64 (← load64 r 24))
    | .w128 => do
      look ⟨r.toNat, 32, false⟩
      requireZero 16 r
      let p ← allocate 16
      reverseBlock 16 (r + 16) p
      return .i32 p
    | .w256 => do
      look ⟨r.toNat, 32, false⟩
      let p ← allocate 32
      reverseBlock 32 r p
      return .i32 p
  | .address, r, _ => do
    look ⟨r.toNat, 32, false⟩
    requireZero 12 r
    .i32 <$> unpackCopy r
  | .enum n, r, _ => do
    let x ← loadWord r 1
    trapWhen (UInt32.ofNat n ≤ x)
    .i32 <$> newCell x
  | .string, r, base => .i32 <$> unpackString r base
  | .bytes n, r, _ => do
    look ⟨r.toNat, 32, false⟩
    requireZero (32 - n) (r + UInt32.ofNat n)
    .i32 <$> unpackCopy r
  | .uid, _, _ => ⟨fun _ => .error .stuck⟩
  | .id, r, _ => do
    look ⟨r.toNat, 32, false⟩
    .i32 <$> newCell (← unpackCopy r)
  | .vector e, r, base => do
    let p ← follow r base
    let n ← lengthAt p
    let vec ← newVector n e.slotWord
    upTo (fun i => do
      let x ← unpacking e (p + 32 + i * e.headWord) (p + 32)
      storeSlot e.wide (vec + i * e.slotWord) 8 x) n.toNat 0
    return .i32 vec
  | .struct fields, r, base =>
    if fields.dynamic then do
      let p ← follow r base
      let rec' ← allocate (UInt32.ofNat fields.record)
      unpackingAll fields rec' p p 0 0
      return .i32 rec'
    else do
      let rec' ← allocate (UInt32.ofNat fields.record)
      unpackingAll fields rec' r base 0 0
      return .i32 rec'

/-- Unpacks the heads from `r + place` on into the record `rec` from `offset` on. -/
def unpackingAll : (fs : Forms) → (rec r base place offset : UInt32) → Compute Unit
  | .nil, _, _, _, _, _ => pure ()
  | .cons _ f fs, rec, r, base, place, offset => do
    let x ← unpacking f (r + place) base
    storeSlot f.wide rec offset x
    unpackingAll fs rec r base (place + f.headWord) (offset + f.slotWord)

end

/-- Puts a parameter into the record, behind a cell of its own when it is a reference. -/
def storeParam (boxed wide : Bool) (rec offset : UInt32) (x : Value) : Compute Unit :=
  if boxed then do
    let cell ← allocate (UInt32.ofNat (slotSize wide))
    storeSlot wide cell 0 x
    store32 rec offset cell
  else storeSlot wide rec offset x

/-- Unpacks parameters; the reader moves over their heads. -/
def unpackingParams : (fs : Forms) → (rec base offset : UInt32) → Compute Unit
  | .nil, _, _, _ => pure ()
  | .cons boxed f fs, rec, base, offset => do
    let x ← unpacking f (← state).reader base
    update fun vm => { vm with reader := vm.reader + f.headWord }
    storeParam boxed f.wide rec offset x
    unpackingParams fs rec base (offset + UInt32.ofNat (f.place boxed))

/-- Unpacks a tuple at `base` into a new record. -/
def unpackingTuple (fs : Forms) (base : UInt32) : Compute UInt32 := do
  update fun vm => { vm with reader := base }
  let rec' ← allocate (UInt32.ofNat fs.record)
  unpackingParams fs rec' base 0
  return rec'

end Codec

end MoveCodec
