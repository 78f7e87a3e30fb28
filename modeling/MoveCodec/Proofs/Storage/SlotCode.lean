import MoveCodec.Proofs.Codec.Fragments
import MoveCodec.Storage.Locate

/-!
# What slot arithmetic computes

The functions that add numbers of 256 bits, step to the next slot, compare words and derive the slot
of an object as computations, and the proof that their bodies do what these say.
-/
namespace MoveCodec.Machine

open Wasm Wasm.Emit

namespace Compute

/-! ## Addition -/

/-- The carry out of `x + y + c`, from the sum `s` of the first two and the sum `t` of all. -/
def carry (x s t : UInt64) : UInt64 := if t < s ∨ s < x then 1 else 0

/-- Adds eight bytes of two numbers and a carry, and gives the next carry. -/
def addPart (a b dst off : UInt32) (c : UInt64) : Compute UInt64 := do
  let x ← load64 a off
  let y ← load64 b off
  store64 dst off (x + y + c)
  return carry x (x + y) (x + y + c)

/-- Adds the numbers at two places, least significant byte first. -/
def addWide (a b dst : UInt32) : Compute Unit := do
  let c ← addPart a b dst 0 0
  let c ← addPart a b dst 8 c
  let c ← addPart a b dst 16 c
  let _ ← addPart a b dst 24 c

/-! ## Slots -/

/-- Adds one to the number at a place, most significant byte first. -/
def stepSlot (ptr : UInt32) : Compute Unit := do
  reverseBlock 32 ptr ptr
  addWide ptr Prelude.oneWord ptr
  reverseBlock 32 ptr ptr

/-- Derives the slot of a key in the mapping at the slot `src`. -/
def hashKey (key src : UInt32) : Compute Unit := do
  copy Prelude.hashScratch key 32
  copy (Prelude.hashScratch + 32) src 32
  host .keccak [Prelude.hashScratch, 64, Prelude.derivedSlot]

/-- Derives the first slot of an object. -/
def deriveSlot (owner id : UInt32) : Compute Unit := do
  hashKey owner Prelude.objectsSlot
  hashKey id Prelude.derivedSlot

/-- Eight bytes at two places are the same. -/
def samePart (a b off : UInt32) : Compute Bool := do
  let x ← load64 a off
  let y ← load64 b off
  return x == y

def sameWord (a b : UInt32) : Compute Bool := do
  let p ← samePart a b 0
  let q ← samePart a b 8
  let r ← samePart a b 16
  let s ← samePart a b 24
  return p && q && r && s

end Compute

open Compute

/-- The function adds numbers of 256 bits. -/
def IsAddWide (p : Program) (f : UInt32) : Prop :=
  ∀ a b dst, Computes p f [.i32 a, .i32 b, .i32 dst] (addWide a b dst) fun _ => []

def IsStepSlot (p : Program) (f : UInt32) : Prop :=
  ∀ ptr, Computes p f [.i32 ptr] (stepSlot ptr) fun _ => []

/-- The function derives the first slot of an object. -/
def IsDeriveSlot (p : Program) (f : UInt32) : Prop :=
  ∀ owner id, Computes p f [.i32 owner, .i32 id] (deriveSlot owner id) fun _ => []

def IsSameWord (p : Program) (f : UInt32) : Prop :=
  ∀ a b, Computes p f [.i32 a, .i32 b] (sameWord a b) fun x => [Value.ofBool x]

section

variable {α β : Type} {p : Program} {vm : Vm} {ls k : List Value} {rest : Code}
  {final : β × Vm → Exit → Prop}

/-! ## Addition -/

theorem and_ofBool (x y : Bool) :
    (if x then 1 else 0 : UInt32) &&& (if y then 1 else 0) = if x && y then 1 else 0 := by
  cases x <;> cases y <;> rfl

theorem carry_eq (x s t : UInt64) :
    (if t < s then 1 else 0 : UInt32).toUInt64 ||| (if s < x then 1 else 0 : UInt32).toUInt64 =
      carry x s t := by
  rw [carry]
  by_cases h : t < s <;> by_cases h' : s < x <;> simp [h, h']

/-- One round of the addition; the carry is in local 6. -/
theorem sim_addPart {a b dst : UInt32} (off : UInt32) {x s t c : UInt64} {w : UInt32}
    {f : UInt64 → Compute β}
    (h : ∀ c' x s t w vm', Sim p rest (vm'.frame [.i32 a, .i32 b, .i32 dst, .i64 x, .i64 s, .i64 t,
      .i64 c', .i32 w] []) final ((f c').run vm')) :
    Sim p ([push 0, load64 off, keep 3, push 1, load64 off, add64, keep 4, push 3, lt64, pop 7,
      push 4, push 6, add64, keep 5, push 4, lt64, push 7, bor, extend, pop 6,
      push 2, push 5, store64 off] ++ rest) (vm.frame [.i32 a, .i32 b, .i32 dst, .i64 x, .i64 s,
        .i64 t, .i64 c, .i32 w] []) final ((addPart a b dst off c >>= f).run vm) := by
  simp only [Compute.addPart, bind_assoc, pure_bind]
  simp
  refine .load64 fun x _ => ?_
  simp
  refine .load64 fun y _ => ?_
  simp [I64Op.eval, I64Rel.eval, Value.ofBool]
  refine .store64 fun vm' _ => ?_
  rw [carry_eq]
  exact h _ _ _ _ _ _

theorem sim_addBody (a b dst : UInt32) (vm : Vm) :
    Sim p Storage.addBody (vm.frame [.i32 a, .i32 b, .i32 dst, .i64 0, .i64 0, .i64 0, .i64 0,
      .i32 0] []) (Leaves (fun _ => []) 0) ((addWide a b dst).run vm) := by
  rw [Storage.addBody, addWide]
  simp only [List.flatMap_cons, List.flatMap_nil]
  exact sim_addPart 0 fun _ _ _ _ _ _ => sim_addPart 8 fun _ _ _ _ _ _ =>
    sim_addPart 16 fun _ _ _ _ _ _ => sim_addPart 24 fun _ _ _ _ _ _ => Sim.nil ⟨rfl, _, rfl⟩

/-! ## Slots -/

theorem sim_nextSlotBody {swap add : UInt32} (hswap : IsReverse p 32 swap) (hadd : IsAddWide p add)
    (ptr : UInt32) (vm : Vm) :
    Sim p (Storage.nextSlotBody swap add) (vm.frame [.i32 ptr] []) (Leaves (fun _ => []) 0)
      ((stepSlot ptr).run vm) := by
  simp [Storage.nextSlotBody, stepSlot]
  refine .call (hswap ptr ptr) fun _ vm' _ => ?_
  simp
  refine .call (hadd ptr Prelude.oneWord ptr) fun _ vm' _ => ?_
  simp
  exact .last (Sim.call (hswap ptr ptr) fun _ _ _ => Sim.nil ⟨rfl, _, rfl⟩)

theorem sim_deriveSlotBody {keccak : UInt32}
    (hkeccak : p.funcs[keccak.toNat]? = some (.host .keccak)) (owner id : UInt32) (vm : Vm) :
    Sim p (Storage.deriveSlotBody keccak) (vm.frame [.i32 owner, .i32 id] [])
      (Leaves (fun _ => []) 0) ((deriveSlot owner id).run vm) := by
  simp [Storage.deriveSlotBody, Storage.copyWord, deriveSlot, hashKey]
  refine .copyBytes fun vm' _ => ?_
  simp
  refine .copyBytes fun vm' _ => ?_
  simp
  refine .callHost hkeccak [Prelude.hashScratch, 64, Prelude.derivedSlot] rfl
    fun vm' _ => ?_
  simp
  refine .copyBytes fun vm' _ => ?_
  simp
  refine .copyBytes fun vm' _ => ?_
  simp
  exact .last (Sim.callHost hkeccak [Prelude.hashScratch, 64, Prelude.derivedSlot] rfl
    fun _ _ => Sim.nil ⟨rfl, _, rfl⟩)

theorem sim_samePart {a b : UInt32} (off : UInt32) {f : Bool → Compute β}
    (h : ∀ x vm', Sim p rest (vm'.frame [.i32 a, .i32 b] (Value.ofBool x :: k)) final
      ((f x).run vm')) :
    Sim p ([push 0, load64 off, push 1, load64 off, eq64] ++ rest)
      (vm.frame [.i32 a, .i32 b] k) final ((samePart a b off >>= f).run vm) := by
  simp only [samePart, bind_assoc, pure_bind]
  simp
  refine .load64 fun x _ => ?_
  simp
  refine .load64 fun y _ => ?_
  simp
  exact h _ _

theorem sim_sameWordBody (a b : UInt32) (vm : Vm) :
    Sim p Storage.sameWordBody (vm.frame [.i32 a, .i32 b] [])
      (Leaves (fun x => [Value.ofBool x]) 1) ((sameWord a b).run vm) := by
  have hand (x y : Bool) (rest : Code) {k : List Value} {r : Except Halt (Bool × Vm)} {vm : Vm} :
      Sim p ([band] ++ rest) (vm.frame [.i32 a, .i32 b] (Value.ofBool y :: Value.ofBool x :: k))
        (Leaves (fun x => [Value.ofBool x]) 1) r ↔
      Sim p rest (vm.frame [.i32 a, .i32 b] (Value.ofBool (x && y) :: k))
        (Leaves (fun x => [Value.ofBool x]) 1) r := by
    rw [Value.ofBool, Value.ofBool, Value.ofBool, ← and_ofBool]
    exact sim_bin rfl
  have hparts : Storage.sameWordBody = [push 0, load64 0, push 1, load64 0, eq64] ++
      ([push 0, load64 8, push 1, load64 8, eq64] ++ ([band] ++
      ([push 0, load64 16, push 1, load64 16, eq64] ++ ([band] ++
      ([push 0, load64 24, push 1, load64 24, eq64] ++ ([band] ++ [])))))) := rfl
  rw [hparts, sameWord]
  refine sim_samePart 0 fun x _ => sim_samePart 8 fun y _ => ?_
  rw [hand]
  refine sim_samePart 16 fun z _ => ?_
  rw [hand]
  refine sim_samePart 24 fun w _ => ?_
  rw [hand]
  exact .nil ⟨rfl, _, rfl⟩

end

end MoveCodec.Machine
