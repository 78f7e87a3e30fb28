import MoveCodec.Proofs.Format.Leb128
import MoveCodec.Wasm.Decode
import Mathlib.Data.List.Basic

/-!
# Reading modules back

A reader inverts a writer when it reads what the writer wrote and leaves the bytes that follow, for
all values whose form is short enough to stand behind a length. Readers of larger parts invert
their writers because the readers of the parts do.
-/
namespace MoveCodec.Wasm

open List

variable {fuel : Nat} {id : UInt8} {m : Module (List Instr)} {bs rest : Bytes} {α : Type}

/-- The form of a function of instructions. -/
def Func.bytes (f : Func (List Instr)) : Bytes :=
  Binary.func { f with body := Binary.body f.body }

def Names.inOrder (n : Names) : Names :=
  { n with functions := n.functions.mergeSort fun a b => a.1 ≤ b.1 }

/-- The form of a function's name behind its index. -/
def Names.function (f : UInt32 × String) : Bytes := Leb128.u32 f.1 ++ Binary.name f.2

/-- The form of the names behind the name of their section. -/
def Names.parts (n : Names) : Bytes :=
  (if n.home = "" then [] else Binary.sectionOf 0 (Binary.name n.home)) ++
    Binary.entries 1 Names.function n.inOrder.functions

theorem Names.bytes_eq (n : Names) : Binary.names n = Binary.name "name" ++ n.parts :=
  append_assoc _ _ _

namespace Module

def inOrder (m : Module (List Instr)) : Module (List Instr) :=
  { m with names := m.names.map Names.inOrder }

def sections (m : Module (List Instr)) : List Custom :=
  m.names.toList.map (fun n => ⟨"name", n.parts⟩) ++ m.customs

/-- Every section is short enough to stand behind its length. -/
structure Encodable (m : Module (List Instr)) : Prop where
  types : (Binary.vec Binary.funcType m.types).length < UInt32.size
  imports : (Binary.vec Binary.importEntry m.imports).length < UInt32.size
  funcs : (Binary.vec Leb128.u32 m.funcs).length < UInt32.size
  memories : (Binary.vec Binary.limits m.memories).length < UInt32.size
  globals : (Binary.vec Binary.global m.globals).length < UInt32.size
  exports : (Binary.vec Binary.exportEntry m.exports).length < UInt32.size
  code : (Binary.vec Func.bytes m.code).length < UInt32.size
  data : (Binary.vec Binary.data m.data).length < UInt32.size
  customs : ∀ c ∈ m.sections, (Binary.name c.name ++ c.bytes).length < UInt32.size

end Module

namespace Reader

/-- A reader takes these bytes for this value, whatever follows. -/
def Reads {α : Type} (item : Reader α) (bs : Bytes) (a : α) : Prop :=
  ∀ rest, item (bs ++ rest) = some (a, rest)

section

variable {α β : Type} {item : Reader α} {next : α → Reader β} {bs bs' : Bytes} {a : α} {b : β}

theorem Reads.pure (a : α) : Reads (Pure.pure a) [] a := fun _ => rfl

theorem bind_eq (h : item bs = some (a, bs')) : (item >>= next) bs = next a bs' :=
  congrArg (fun r => r.bind fun p => next p.1 p.2) h

theorem Reads.bind (hitem : Reads item bs a) (hnext : Reads (next a) bs' b) :
    Reads (item >>= next) (bs ++ bs') b := by
  intro rest
  rw [append_assoc]
  exact (bind_eq (hitem _)).trans (hnext rest)

/-- The last value read is put into the result. -/
theorem Reads.last (hitem : Reads item bs a) (f : α → β) :
    Reads (item >>= fun x => Pure.pure (f x)) bs (f a) := by
  have hpure : Reads ((fun x => Pure.pure (f x)) a : Reader β) [] (f a) := Reads.pure (f a)
  have h : Reads (item >>= fun x => Pure.pure (f x)) (bs ++ []) (f a) := hitem.bind hpure
  rwa [append_nil] at h

theorem Reads.all (hitem : Reads item bs a) : Reader.all item bs = some a := by
  have h := hitem []
  rw [append_nil] at h
  rw [Reader.all, h]

theorem reads_u32 (v : UInt32) : Reads u32 (Leb128.u32 v) v := Leb128.readU32?_u32 v

theorem reads_count {n : Nat} (h : n < UInt32.size) :
    Reads u32 (Leb128.count n) (UInt32.ofNat n) ∧ (UInt32.ofNat n).toNat = n :=
  ⟨reads_u32 _, UInt32.toNat_ofNat_of_lt' h⟩

theorem reads_repeated {w : α → Bytes} {xs : List α} (h : ∀ x ∈ xs, Reads item (w x) x) :
    Reads (repeated item xs.length) (xs.flatMap w) xs := by
  induction xs with
  | nil => exact Reads.pure []
  | cons x xs ih =>
    rw [flatMap_cons]
    refine (h x mem_cons_self).bind ?_
    exact (ih fun y hy => h y (mem_cons_of_mem x hy)).last (x :: ·)

theorem reads_vec {w : α → Bytes} {xs : List α} (h : ∀ x ∈ xs, Reads item (w x) x)
    (hlen : xs.length < UInt32.size) : Reads (vec item) (Binary.vec w xs) xs := by
  obtain ⟨hcount, hn⟩ := reads_count hlen
  refine hcount.bind ?_
  rw [hn]
  exact reads_repeated h

end

/-! ## Inverse readers -/

/-- A reader inverts a writer on all values whose form can stand behind a length. No form is empty,
so a list has no more entries than bytes. -/
structure Inverts {α : Type} (item : Reader α) (w : α → Bytes) : Prop where
  reads : ∀ a, (w a).length < UInt32.size → Reads item (w a) a
  pos : ∀ a, 0 < (w a).length

section

variable {α : Type} {item : Reader α} {w : α → Bytes}

theorem length_le_of_pos (h : ∀ a, 0 < (w a).length) (xs : List α) :
    xs.length ≤ (xs.flatMap w).length := by
  induction xs with
  | nil => simp
  | cons x xs ih =>
    have hx := h x
    rw [flatMap_cons, length_append, length_cons]
    omega

theorem length_le_flatMap {xs : List α} {x : α} (hx : x ∈ xs) :
    (w x).length ≤ (xs.flatMap w).length :=
  (sublist_flatten_of_mem (mem_map_of_mem hx)).length_le

theorem Inverts.vec (h : Inverts item w) : Inverts (Reader.vec item) (Binary.vec w) where
  reads xs hlen := by
    rw [Binary.vec, length_append] at hlen
    have hcount := length_le_of_pos h.pos xs
    refine reads_vec (fun x hx => h.reads x ?_) (by omega)
    have hitem := length_le_flatMap (w := w) hx
    omega
  pos xs := by
    have hpos := Leb128.length_u32_pos (UInt32.ofNat xs.length)
    rw [Binary.vec, Leb128.count, length_append]
    omega

end

/-- Bytes that start with a custom section or one that comes after `id`, if with any. -/
def Follows (id : UInt8) (bs : Bytes) : Prop := ∀ b, bs.head? = some b → b = 0 ∨ id < b

theorem Follows.entries {id id' : UInt8} (h : Follows id' rest) (hid : id < id') (w : α → Bytes)
    (xs : List α) : Follows id (Binary.entries id' w xs ++ rest) := by
  unfold Binary.entries
  split
  · exact fun b hb => (h b hb).imp_right (UInt8.lt_trans hid)
  · intro b hb
    cases hb
    exact .inr hid

end Reader

open Reader

namespace Module

theorem customs_eq (m : Module (List Instr)) :
    (match m.names with
      | some n => Binary.sectionOf 0 (Binary.names n)
      | none => []) ++ m.customs.flatMap Binary.custom = m.sections.flatMap Binary.custom := by
  cases h : m.names with
  | none => simp [sections, h]
  | some n => simp [sections, h, Binary.custom, Names.bytes_eq]

theorem entries_map {β : Type} (id : UInt8) (w : β → Bytes) (f : α → β) (xs : List α) :
    Binary.entries id w (xs.map f) = Binary.entries id (w ∘ f) xs := by
  simp [Binary.entries, Binary.vec, flatMap_map, Function.comp_def]

theorem encode_eq (m : Module (List Instr)) :
    m.encode = Binary.header ++ (Binary.entries 1 Binary.funcType m.types ++
      (Binary.entries 2 Binary.importEntry m.imports ++ (Binary.entries 3 Leb128.u32 m.funcs ++
      (Binary.entries 5 Binary.limits m.memories ++ (Binary.entries 6 Binary.global m.globals ++
      (Binary.entries 7 Binary.exportEntry m.exports ++ (Binary.entries 10 Func.bytes m.code ++
      (Binary.entries 11 Binary.data m.data ++ m.sections.flatMap Binary.custom)))))))) := by
  have hcode : Binary.entries 10 Binary.func m.assemble.code
      = Binary.entries 10 Func.bytes m.code := entries_map 10 Binary.func _ m.code
  rw [← customs_eq, encode, Binary.module, hcode]
  simp only [assemble, append_assoc] <;> rfl

/-- Equal but for the order in which the names of functions are listed; the list stands for a map
from indices. -/
def Same (m m' : Module (List Instr)) : Prop :=
  { m with names := none } = { m' with names := none } ∧
    Option.Rel (fun n n' => n.home = n'.home ∧ n.functions.Perm n'.functions) m.names m'.names

end Module

end MoveCodec.Wasm
