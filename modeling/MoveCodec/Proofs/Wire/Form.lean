import MoveCodec.Proofs.Bytes
import MoveCodec.Wire.Class

/-!
# Wire forms

The form of a type is what is left of its shape when names are forgotten: how its values lie in
memory and how they are written on the wire. The values of a form are a type of their own, so a
value is well-formed by construction, and `Form.encode` is their canonical encoding: heads in
order, a static value in its head, and for a dynamic value the distance from the start of its
tuple to a tail; tails follow the heads in the same order.
-/
namespace MoveCodec

open Bytes
open List hiding Vector

mutual

inductive Form where
  | bool
  | int (width : IntWidth)
  | address
  /-- An enum without fields, with so many variants. -/
  | enum (variants : Nat)
  | string
  /-- A fixed byte string of at most 32 bytes. -/
  | bytes (length : Fin 33)
  | uid
  | id
  | vector (elem : Form)
  | struct (fields : Forms)

/-- The parts of a record or tuple; a part can stand behind a reference. -/
inductive Forms where
  | nil
  | cons (boxed : Bool) (first : Form) (rest : Forms)

end

mutual

/-- The encoding has variable size. -/
def Form.dynamic : Form → Bool
  | .string | .vector _ => true
  | .struct fields => fields.dynamic
  | _ => false

def Forms.dynamic : Forms → Bool
  | .nil => false
  | .cons _ f fs => f.dynamic || fs.dynamic

end

mutual

/-- Bytes of the encoding of a static value. -/
def Form.size : Form → Nat
  | .struct fields => fields.size
  | _ => 32

def Forms.size : Forms → Nat
  | .nil => 0
  | .cons _ f fs => f.size + fs.size

end

/-- Bytes a value takes among the heads of its tuple. -/
def Form.head (f : Form) : Nat := if f.dynamic then 32 else f.size

def Forms.heads : Forms → Nat
  | .nil => 0
  | .cons _ f fs => f.head + fs.heads

/-- The values are held in 64-bit registers. -/
def Form.wide : Form → Bool
  | .int .w64 => true
  | _ => false

/-- Bytes of a register. -/
def slotSize (wide : Bool) : Nat := if wide then 8 else 4

/-- Bytes of a value in a record: the value itself or a pointer to it. -/
def Form.slot (f : Form) : Nat := slotSize f.wide

/-- Bytes of a part in a record. -/
def Form.place (boxed : Bool) (f : Form) : Nat := if boxed then 4 else f.slot

def Forms.record : Forms → Nat
  | .nil => 0
  | .cons boxed f fs => f.place boxed + fs.record

/-! ## Values -/

mutual

@[reducible] def Form.Val : Form → Type
  | .bool => Bool
  | .int w => BitVec w.bits
  | .address => Vector UInt8 20
  | .enum n => Fin n
  | .string => Bytes
  | .bytes n => Vector UInt8 n
  | .uid | .id => Word
  | .vector e => List e.Val
  | .struct fields => fields.Val

@[reducible] def Forms.Val : Forms → Type
  | .nil => Unit
  | .cons _ f fs => f.Val × fs.Val

end

/-! ## Encoding -/

namespace Wire

/-- An encoded value, and whether it stands in a tail. -/
structure Piece where
  dynamic : Bool
  bytes : Bytes

namespace Piece

/-- What stands among the heads when the next tail is `next` bytes behind the start. -/
def head (next : Nat) (p : Piece) : Bytes := if p.dynamic then ofNatBE 32 next else p.bytes

def tail (p : Piece) : Bytes := if p.dynamic then p.bytes else []

/-- Bytes among the heads. -/
def width (p : Piece) : Nat := if p.dynamic then 32 else p.bytes.length

@[simp] theorem length_head (next : Nat) (p : Piece) : (p.head next).length = p.width := by
  unfold head width
  split <;> simp

end Piece

def headsSize : List Piece → Nat
  | [] => 0
  | p :: ps => p.width + headsSize ps

/-- The heads of a tuple whose next tail is `next` bytes behind its start. -/
def heads (next : Nat) : List Piece → Bytes
  | [] => []
  | p :: ps => p.head next ++ heads (next + p.tail.length) ps

def tails : List Piece → Bytes
  | [] => []
  | p :: ps => p.tail ++ tails ps

/-- A tuple: its heads and then its tails. -/
def join (ps : List Piece) : Bytes := heads (headsSize ps) ps ++ tails ps

@[simp] theorem length_heads (next : Nat) (ps : List Piece) :
    (heads next ps).length = headsSize ps := by
  induction ps generalizing next with
  | nil => rfl
  | cons p ps ih => simp [heads, headsSize, ih]

theorem length_join (ps : List Piece) :
    (join ps).length = headsSize ps + (tails ps).length := by
  simp [join]

theorem tails_static {ps : List Piece} (h : ∀ p ∈ ps, p.dynamic = false) : tails ps = [] := by
  induction ps with
  | nil => rfl
  | cons p ps ih =>
    rw [tails, ih fun q hq => h q (mem_cons_of_mem _ hq)]
    simp [Piece.tail, h p (mem_cons_self ..)]

/-- The heads of static values do not depend on where tails would be. -/
theorem heads_static {ps : List Piece} (h : ∀ p ∈ ps, p.dynamic = false) (next next' : Nat) :
    heads next ps = heads next' ps := by
  induction ps generalizing next next' with
  | nil => rfl
  | cons p ps ih =>
    have hp := h p (mem_cons_self ..)
    have hps := ih (fun q hq => h q (mem_cons_of_mem _ hq))
      (next + p.tail.length) (next' + p.tail.length)
    simp only [heads, hps, Piece.head, hp, Bool.false_eq_true, if_false]

/-- Zeros that fill up the last word of `n` bytes. -/
def padding (n : Nat) : Bytes := List.replicate ((32 - n % 32) % 32) 0

end Wire

mutual

/-- The canonical encoding of a value, without the head that points to it. -/
def Form.encode : (f : Form) → f.Val → Bytes
  | .bool, (b : Bool) => ofNatBE 32 b.toNat
  | .int _, (x : BitVec _) => ofNatBE 32 x.toNat
  | .address, (a : Vector UInt8 20) => List.replicate 12 0 ++ a.toList
  | .enum _, (i : Fin _) => ofNatBE 32 i.val
  | .string, (s : Bytes) => ofNatBE 32 s.length ++ (s ++ Wire.padding s.length)
  | .bytes n, (x : Vector UInt8 n) => x.toList ++ List.replicate (32 - n) 0
  | .uid, (w : Word) => w.toList
  | .id, (w : Word) => w.toList
  | .vector e, (xs : List e.Val) =>
    ofNatBE 32 xs.length ++ Wire.join (xs.map fun x => ⟨e.dynamic, e.encode x⟩)
  | .struct fields, x => Wire.join (fields.pieces x)

/-- The parts of a tuple, each encoded. -/
def Forms.pieces : (fs : Forms) → fs.Val → List Wire.Piece
  | .nil, _ => []
  | .cons _ f fs, (x : f.Val × fs.Val) => ⟨f.dynamic, f.encode x.1⟩ :: fs.pieces x.2

end

abbrev Form.piece (f : Form) (x : f.Val) : Wire.Piece := ⟨f.dynamic, f.encode x⟩

theorem Forms.pieces_cons (boxed : Bool) (f : Form) (fs : Forms) (x : f.Val × fs.Val) :
    (Forms.cons boxed f fs).pieces x = f.piece x.1 :: fs.pieces x.2 := rfl

/-- The canonical encoding of a tuple. -/
def Forms.encode (fs : Forms) (x : fs.Val) : Bytes := Wire.join (fs.pieces x)

/-! ## Sizes -/

mutual

theorem Form.length_encode : ∀ (f : Form) (x : f.Val), f.dynamic = false →
    (f.encode x).length = f.size
  | .bool, _, _ | .int _, _, _ | .enum _, _, _ => by simp [Form.encode, Form.size]
  | .address, (a : Vector UInt8 20), _ => by simp [Form.encode, Form.size]
  | .bytes n, (x : Vector UInt8 n), _ => by
    have := n.isLt
    simp [Form.encode, Form.size]
    omega
  | .uid, (w : Word), _ | .id, (w : Word), _ => by simp [Form.encode, Form.size]
  | .struct fields, x, h => by
    rw [Form.dynamic] at h
    rw [Form.encode, Wire.length_join, Wire.tails_static (fields.pieces_static x h),
      fields.headsSize_static x h]
    simp [Form.size]

theorem Forms.pieces_static : ∀ (fs : Forms) (x : fs.Val), fs.dynamic = false →
    ∀ p ∈ fs.pieces x, p.dynamic = false
  | .nil, _, _ => by simp [Forms.pieces]
  | .cons _ f fs, x, h => by
    simp only [Forms.dynamic, Bool.or_eq_false_iff] at h
    simp only [Forms.pieces, mem_cons, forall_eq_or_imp]
    exact ⟨h.1, fs.pieces_static x.2 h.2⟩

theorem Forms.headsSize_static : ∀ (fs : Forms) (x : fs.Val), fs.dynamic = false →
    Wire.headsSize (fs.pieces x) = fs.size
  | .nil, _, _ => rfl
  | .cons _ f fs, x, h => by
    simp only [Forms.dynamic, Bool.or_eq_false_iff] at h
    rw [Forms.pieces, Wire.headsSize, fs.headsSize_static x.2 h.2, Wire.Piece.width, h.1]
    simp [f.length_encode x.1 h.1, Forms.size]

end

/-- The piece of a value is as wide as its form says. -/
theorem Form.width_piece (f : Form) (x : f.Val) : (f.piece x).width = f.head := by
  cases h : f.dynamic with
  | true => simp [Wire.Piece.width, Form.head, h]
  | false => simp [Wire.Piece.width, Form.head, h, f.length_encode x h]

theorem Form.headsSize_map (f : Form) (xs : List f.Val) :
    Wire.headsSize (xs.map f.piece) = xs.length * f.head := by
  induction xs with
  | nil => simp [Wire.headsSize]
  | cons x xs ih =>
    rw [map_cons, Wire.headsSize, ih, f.width_piece, length_cons, Nat.succ_mul,
      Nat.add_comm]

theorem Forms.headsSize_pieces (fs : Forms) (x : fs.Val) :
    Wire.headsSize (fs.pieces x) = fs.heads := by
  match fs, x with
  | .nil, _ => rfl
  | .cons _ f fs, x =>
    rw [Forms.pieces, Wire.headsSize, f.width_piece, fs.headsSize_pieces x.2, Forms.heads]

mutual

theorem Form.size_mod : ∀ f : Form, f.size % 32 = 0
  | .bool | .int _ | .address | .enum _ | .string | .bytes _ | .uid | .id | .vector _ => by
    simp [Form.size]
  | .struct fields => by
    rw [Form.size]
    exact fields.size_mod

theorem Forms.size_mod : ∀ fs : Forms, fs.size % 32 = 0
  | .nil => rfl
  | .cons _ f fs => by
    have := f.size_mod
    have := fs.size_mod
    rw [Forms.size]
    omega

end

/-- Heads are whole words. -/
theorem Forms.heads_mod (fs : Forms) : fs.heads % 32 = 0 := by
  match fs with
  | .nil => rfl
  | .cons _ f fs =>
    have hf : f.head % 32 = 0 := by
      unfold Form.head
      split
      · rfl
      · exact f.size_mod
    have hfs := fs.heads_mod
    rw [Forms.heads]
    omega

/-- A tuple of whole words is whole words. -/
theorem Wire.length_join_mod {ps : List Wire.Piece} (h : ∀ p ∈ ps, p.bytes.length % 32 = 0) :
    (Wire.join ps).length % 32 = 0 := by
  have hparts : Wire.headsSize ps % 32 = 0 ∧ (Wire.tails ps).length % 32 = 0 := by
    induction ps with
    | nil => exact ⟨rfl, rfl⟩
    | cons p ps ih =>
      rw [forall_mem_cons] at h
      obtain ⟨hheads, htails⟩ := ih h.2
      have hp := h.1
      rw [Wire.headsSize, Wire.tails, length_append, Wire.Piece.width, Wire.Piece.tail]
      cases p.dynamic <;> simp <;> omega
  rw [Wire.length_join]
  omega

mutual

/-- An encoding is whole words. -/
theorem Form.length_encode_mod : ∀ (f : Form) (x : f.Val), (f.encode x).length % 32 = 0
  | .bool, x | .int _, x | .address, x | .enum _, x | .bytes _, x | .uid, x | .id, x => by
    rw [Form.length_encode _ x rfl, Form.size_mod]
  | .string, (s : Bytes) => by
    simp only [Form.encode, Wire.padding, length_append, length_ofNatBE,
      length_replicate]
    omega
  | .vector e, (xs : List e.Val) => by
    have hxs : ∀ p ∈ xs.map e.piece, p.bytes.length % 32 = 0 := by
      intro p hp
      obtain ⟨x, -, rfl⟩ := mem_map.1 hp
      exact e.length_encode_mod x
    have hjoin := Wire.length_join_mod hxs
    rw [Form.encode, length_append, length_ofNatBE, Nat.add_mod, hjoin]
  | .struct fields, x => by
    rw [Form.encode]
    exact Wire.length_join_mod (fields.length_pieces_mod x)

theorem Forms.length_pieces_mod : ∀ (fs : Forms) (x : fs.Val),
    ∀ p ∈ fs.pieces x, p.bytes.length % 32 = 0
  | .nil, _ => by simp [Forms.pieces]
  | .cons _ f fs, x => by
    simp only [Forms.pieces, mem_cons, forall_eq_or_imp]
    exact ⟨f.length_encode_mod x.1, fs.length_pieces_mod x.2⟩

end

/-- The heads of a static tuple are its encoding. -/
theorem Forms.heads_eq_size (fs : Forms) (h : fs.dynamic = false) : fs.heads = fs.size := by
  match fs with
  | .nil => rfl
  | .cons _ f fs =>
    simp only [Forms.dynamic, Bool.or_eq_false_iff] at h
    rw [Forms.heads, Forms.size, fs.heads_eq_size h.2, Form.head, h.1]
    simp

end MoveCodec
