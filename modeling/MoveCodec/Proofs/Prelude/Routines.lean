import MoveCodec.Prelude.Routines
import MoveCodec.Proofs.Bytes
import MoveCodec.Proofs.Machine.Control

/-!
# What the routines compute

The allocator, the reversal of bytes and the check for zeros as computations, and the proof that
their bodies do what these say.
-/
namespace MoveCodec.Machine

open Wasm Wasm.Emit List Bytes

namespace Compute

/-! ## Allocation -/

/-- Adds pages; traps when the limit is reached. -/
def grow (n : UInt32) : Compute Unit := ⟨fun vm =>
  match vm.memory.grow? n.toNat with
  | some memory =>
    if UInt32.ofNat vm.memory.pages.size = 0xffffffff then .error (.trap .unreachable)
    else .ok ((), { vm with memory })
  | none => .error (.trap .unreachable)⟩

/-- Grows the memory when it ends before an address. -/
def reserve (next : UInt32) : Compute Unit := do
  let bytes := UInt32.ofNat (← state).memory.pages.size <<< 16
  if bytes < next then grow ((next - bytes + 65535) >>> 16) else pure ()

/-- Hands out the next bytes of the heap. -/
def allocate (size : UInt32) : Compute UInt32 := do
  let top := (← state).top
  trapWhen (top + size < top)
  reserve (top + size)
  update fun vm => { vm with top := top + size }
  return top

/-! ## Byte order -/

/-- The number with its four bytes reversed. -/
def swap32 (v : UInt32) : UInt32 := UInt32.ofNat (toNatBE (ofNatLE 4 v.toNat))

/-- The number with its eight bytes reversed. -/
def swap64 (v : UInt64) : UInt64 := UInt64.ofNat (toNatBE (ofNatLE 8 v.toNat))

/-- Writes `n` bytes in reverse order to another place. -/
def reverseBlock (n : Nat) (src dst : UInt32) : Compute Unit := do
  write dst.toNat (← read src.toNat n).reverse

/-! ## Zeros -/

/-- Traps unless the `n` bytes from `a` on are zero; addresses wrap. -/
def requireZero : (n : Nat) → (a : UInt32) → Compute Unit
  | 0, _ => pure ()
  | n + 1, a => do
    trapWhen ((← load8 a 0) != 0)
    requireZero n (a + 1)

end Compute

open Compute

section

variable {α β : Type} {p : Program} {vm vm' : Vm} {ls k : List Value} {rest : Code}
  {final : β × Vm → Exit → Prop}

theorem sim_grow (n : UInt32) :
    Sim p [.op .memoryGrow, const 0xffffffff, eq, trapIf] (vm.frame ls (.i32 n :: k))
      (Next fun _ vm' => vm'.frame ls k) ((grow n).run vm) := by
  have hstep : step .memoryGrow (vm.frame ls (.i32 n :: k)) =
    match vm.memory.grow? n.toNat with
    | some m => .next ({ vm with memory := m }.frame ls
        (.i32 (UInt32.ofNat vm.memory.pages.size) :: k))
    | none => .next (vm.frame ls (.i32 0xffffffff :: k)) := rfl
  cases hg : vm.memory.grow? n.toNat with
  | none =>
    have hrun : (grow n).run vm = (trapWhen (0xffffffff == (0xffffffff : UInt32))).run vm := by
      simp [grow, hg, trapWhen]
    rw [hg] at hstep
    rw [hrun, ← bind_pure (trapWhen _), sim_op (by simp) hstep, sim_const, sim_rel]
    exact .trapIf_ofBool fun h => by simp [I32Rel.eval] at h
  | some m =>
    have hrun : (grow n).run vm =
        (trapWhen (UInt32.ofNat vm.memory.pages.size == 0xffffffff)).run
          { vm with memory := m } := by
      by_cases hpages : UInt32.ofNat vm.memory.pages.size = 0xffffffff <;>
        simp [grow, hg, trapWhen, hpages]
    rw [hg] at hstep
    rw [hrun, ← bind_pure (trapWhen _), sim_op (by simp) hstep, sim_const, sim_rel]
    exact .trapIf_ofBool fun _ => Sim.nil rfl

theorem sim_allocateBody (size : UInt32) (vm : Vm) :
    Sim p Prelude.allocateBody (vm.frame [.i32 size, .i32 0, .i32 0, .i32 0] [])
      (Leaves (fun a => [.i32 a]) 1) ((allocate size).run vm) := by
  simp [Prelude.allocateBody, Prelude.heapTop, allocate, -bind_pure_comp]
  refine .trapIf_ofBool fun _ => ?_
  simp [-bind_pure_comp]
  have hlast : ∀ vm' : Vm, Sim p [push 2, popGlobal 0, push 1]
      (vm'.frame [.i32 size, .i32 vm.top, .i32 (vm.top + size),
        .i32 (UInt32.ofNat vm.memory.pages.size <<< 16)] []) (Leaves (fun a => [.i32 a]) 1)
      ((update (fun vm' => { vm' with top := vm.top + size }) >>= fun _ => pure vm.top).run vm') := by
    intro vm'
    simp [-bind_pure_comp]
    exact .nil ⟨rfl, _, rfl⟩
  by_cases hgrow : UInt32.ofNat vm.memory.pages.size <<< 16 < vm.top + size
  · simp only [reserve, bind_assoc, run_state_bind, hgrow, if_true]
    refine .when_taken (by simp [I32Rel.eval, hgrow]) ?_ fun _ vm' _ => hlast vm'
    simp
    exact sim_grow _
  · simp only [reserve, bind_assoc, run_state_bind, hgrow, if_false, pure_bind]
    have hcond : Value.ofBool (I32Rel.eval .gtU (vm.top + size)
        (UInt32.ofNat vm.memory.pages.size <<< 16)) = .i32 0 := by
      simp [Value.ofBool, I32Rel.eval, hgrow]
    rw [hcond, sim_when_skip]
    exact hlast vm

/-! ## Byte order -/

theorem swap_bits (x : BitVec 32) :
    ((x <<< 8 ||| x >>> 24) &&& 0xff00ff#32) ||| ((x >>> 8 ||| x <<< 24) &&& 0xff00ff00#32) =
      x.extractLsb' 0 8 ++ x.extractLsb' 8 8 ++ x.extractLsb' 16 8 ++ x.extractLsb' 24 8 := by
  apply BitVec.eq_of_getLsbD_eq
  intro i hi
  simp only [BitVec.getLsbD_append, BitVec.getLsbD_extractLsb', BitVec.getLsbD_or,
    BitVec.getLsbD_and, BitVec.getLsbD_shiftLeft, BitVec.getLsbD_ushiftRight]
  interval_cases i <;> simp

theorem toNat_swap_bits (x : BitVec 32) :
    (x.extractLsb' 0 8 ++ x.extractLsb' 8 8 ++ x.extractLsb' 16 8 ++ x.extractLsb' 24 8).toNat =
      toNatBE (ofNatLE 4 x.toNat) := by
  have hx := x.isLt
  have hbytes : toNatBE (ofNatLE 4 x.toNat) = x.toNat / 16777216 % 256 +
      256 * (x.toNat / 65536 % 256 + 256 * (x.toNat / 256 % 256 + 256 * (x.toNat % 256))) := by
    simp [toNatBE, ofNatLE, toNatLE, Nat.div_div_eq_div_mul]
  simp only [BitVec.toNat_append, BitVec.extractLsb'_toNat, Nat.shiftRight_eq_div_pow, hbytes]
  rw [← Nat.shiftLeft_add_eq_or_of_lt (by omega), ← Nat.shiftLeft_add_eq_or_of_lt (by omega),
    ← Nat.shiftLeft_add_eq_or_of_lt (by omega)]
  simp only [Nat.shiftLeft_eq, Nat.reducePow, Nat.div_one]
  omega

theorem toNat_swap32 (v : UInt32) :
    (swap32 v).toNat = toNatBE (ofNatLE 4 v.toNat) := by
  have := toNatBE_lt (ofNatLE 4 v.toNat)
  rw [length_ofNatLE] at this
  exact UInt32.toNat_ofNat_of_lt' this

theorem toNat_swap64 (v : UInt64) :
    (swap64 v).toNat = toNatBE (ofNatLE 8 v.toNat) := by
  have := toNatBE_lt (ofNatLE 8 v.toNat)
  rw [length_ofNatLE] at this
  exact UInt64.toNat_ofNat_of_lt' this

/-- Two rotations and two masks reverse the bytes. -/
theorem swap32_eq (v : UInt32) :
    ((v <<< 8 ||| v >>> 24) &&& (16711935 : UInt32)) |||
        ((v >>> 8 ||| v <<< 24) &&& (4278255360 : UInt32)) = swap32 v := by
  apply UInt32.toNat_inj.mp
  have h := toNat_swap_bits v.toBitVec
  rw [← swap_bits] at h
  rw [toNat_swap32]
  exact h

theorem sim_swap32Body (v : UInt32) (vm : Vm) :
    Sim p Prelude.swap32Body (vm.frame [.i32 v] [])
      (Leaves (fun a => [.i32 a]) 1) ((pure (swap32 v) : Compute UInt32).run vm) := by
  simp [Prelude.swap32Body, swap32_eq]
  exact .nil ⟨rfl, _, rfl⟩

/-- The reversed halves of a number, exchanged. -/
theorem swap64_eq (v : UInt64) :
    (swap32 v.toUInt32).toUInt64 <<< 32 ||| (swap32 (v >>> 32).toUInt32).toUInt64 = swap64 v := by
  have hrev : ∀ w : UInt32, (swap32 w).toNat = toNatLE (ofNatLE 4 w.toNat).reverse :=
    toNat_swap32
  have hv := v.toNat_lt
  have hhigh : (v >>> 32).toUInt32.toNat = v.toNat / 2 ^ 32 := by
    simp [Nat.shiftRight_eq_div_pow]
    omega
  have hlow : ofNatLE 4 v.toUInt32.toNat = ofNatLE 4 v.toNat := by
    rw [UInt64.toNat_toUInt32]
    exact ofNatLE_mod 4 v.toNat
  have hsplit : ofNatLE 8 v.toNat =
      ofNatLE 4 v.toNat ++ ofNatLE 4 (v.toNat / 2 ^ 32) := ofNatLE_add 4 4 v.toNat
  apply UInt64.toNat_inj.mp
  rw [toNat_swap64, toNatBE, hsplit,
    reverse_append, toNatLE_append, ← hhigh, ← hrev, ← hlow, ← hrev]
  simp only [UInt64.toNat_or, UInt64.toNat_shiftLeft, UInt32.toNat_toUInt64, length_reverse,
    length_ofNatLE]
  have hlt32 := (swap32 v.toUInt32).toNat_lt
  have hlt32' := (swap32 (v >>> 32).toUInt32).toNat_lt
  have h32 : (32 : UInt64).toNat % 64 = 32 := rfl
  rw [h32, Nat.mod_eq_of_lt (by rw [Nat.shiftLeft_eq]; omega),
    ← Nat.shiftLeft_add_eq_or_of_lt hlt32', Nat.shiftLeft_eq]
  omega

theorem sim_swap64Body {f : UInt32}
    (hf : ∀ v, Computes p f [.i32 v] (pure (swap32 v)) fun a => [.i32 a]) (v : UInt64) (vm : Vm) :
    Sim p (Prelude.swap64Body f) (vm.frame [.i64 v] [])
      (Leaves (fun a => [.i64 a]) 1) ((pure (swap64 v) : Compute UInt64).run vm) := by
  simp [Prelude.swap64Body]
  refine .call_pure (hf _) ?_
  simp
  refine .call_pure (hf _) ?_
  simp [I64Op.eval, swap64_eq]
  exact .nil ⟨rfl, _, rfl⟩

/-! ## Blocks -/

/-- A read in two parts. -/
theorem read_add (a m n : Nat) :
    read a (m + n) = (read a m >>= fun x => read (a + m) n >>= fun y => pure (x ++ y)) := by
  ext vm
  simp only [Compute.read, run_bind, Memory.read?]
  by_cases h : a + (m + n) ≤ vm.memory.size
  · simp [h, show a + m ≤ vm.memory.size by omega, Memory.slice,
      range_add, Nat.add_assoc, Function.comp_def]
  · by_cases h' : a + m ≤ vm.memory.size
    · simp [h, h', show ¬ a + m + n ≤ vm.memory.size by omega]
    · simp [h, h']

/-- A write in two parts, the second before the first. -/
theorem write_append (a : Nat) (xs ys : Bytes) :
    write a (xs ++ ys) = (write (a + xs.length) ys >>= fun _ => write a xs) := by
  ext vm
  simp only [Compute.write, run_bind, length_append]
  by_cases h : a + (xs.length + ys.length) ≤ vm.memory.size
  · simp only [h, show a + xs.length + ys.length ≤ vm.memory.size by omega, if_true]
    rw [Memory.splice_append, Memory.splice_comm _ (.inl (by omega))]
    simp [show a + xs.length ≤ vm.memory.size by omega]
  · simp [h, show ¬ a + xs.length + ys.length ≤ vm.memory.size by omega]

theorem read_bind_congr {a n : Nat} {f g : Bytes → Compute β}
    (h : ∀ bs, bs.length = n → f bs = g bs) : read a n >>= f = read a n >>= g := by
  ext vm
  rw [run_bind, run_bind]
  cases hr : (read a n).run vm with
  | error e => rfl
  | ok r =>
    obtain ⟨bs, vm'⟩ := r
    obtain ⟨hread, rfl⟩ := read_ok hr
    simp only [Memory.read?] at hread
    split at hread
    · cases hread
      simp only
      rw [h _ (by simp)]
    · simp at hread

/-- Storing a number that was loaded and reversed writes the bytes that were loaded, reversed. -/
theorem store64_swap64 (a off : UInt32) {bs : Bytes} (h : bs.length = 8) :
    store64 a off (swap64 (UInt64.ofNat (toNatLE bs))) =
      write (a.toNat + off.toNat) bs.reverse := by
  have hlt := toNatLE_lt bs
  rw [h] at hlt
  rw [Compute.store64, toNat_swap64, UInt64.toNat_ofNat_of_lt' hlt, ofNatLE_of_length h, toNatBE,
    ofNatLE_of_length (length_reverse.trans h)]

theorem reverseBlock_16 (src dst : UInt32) :
    reverseBlock 16 src dst = (load64 src 0 >>= fun x => load64 src 8 >>= fun y =>
      store64 dst 8 (swap64 x) >>= fun _ => store64 dst 0 (swap64 y)) := by
  simp only [Compute.reverseBlock, Compute.load64, bind_map_left, UInt32.reduceToNat, Nat.add_zero]
  rw [show (16 : Nat) = 8 + 8 from rfl, read_add]
  simp only [bind_assoc, pure_bind]
  refine read_bind_congr fun x hx => read_bind_congr fun y hy => ?_
  rw [store64_swap64 _ _ hx, store64_swap64 _ _ hy, reverse_append, write_append]
  simp only [length_reverse, hy, UInt32.reduceToNat, Nat.add_zero]

theorem reverseBlock_32 (src dst : UInt32) :
    reverseBlock 32 src dst = (load64 src 0 >>= fun x => load64 src 8 >>= fun y =>
      load64 src 16 >>= fun z => load64 src 24 >>= fun w =>
      store64 dst 24 (swap64 x) >>= fun _ => store64 dst 16 (swap64 y) >>= fun _ =>
      store64 dst 8 (swap64 z) >>= fun _ => store64 dst 0 (swap64 w)) := by
  simp only [Compute.reverseBlock, Compute.load64, bind_map_left, UInt32.reduceToNat, Nat.add_zero]
  rw [show (32 : Nat) = 8 + (8 + (8 + 8)) from rfl, read_add, read_add, read_add]
  simp only [bind_assoc, pure_bind]
  refine read_bind_congr fun x hx => read_bind_congr fun y hy => read_bind_congr fun z hz =>
    read_bind_congr fun w hw => ?_
  rw [store64_swap64 _ _ hx, store64_swap64 _ _ hy, store64_swap64 _ _ hz, store64_swap64 _ _ hw,
    reverse_append, reverse_append, reverse_append, write_append, write_append,
    write_append]
  simp only [length_append, length_reverse, hy, hz, hw, UInt32.reduceToNat, Nat.add_zero,
    Nat.reduceAdd]

section

variable {f : UInt32} (hf : ∀ v, Computes p f [.i64 v] (pure (swap64 v)) fun a => [.i64 a])

include hf

theorem sim_reverseBlockBody_16 (src dst : UInt32) (vm : Vm) :
    Sim p (Prelude.reverseBlockBody f 2) (vm.frame [.i32 src, .i32 dst, .i64 0, .i64 0] [])
      (Leaves (fun _ => []) 0) ((reverseBlock 16 src dst).run vm) := by
  rw [reverseBlock_16]
  simp [Prelude.reverseBlockBody, range_succ]
  iterate 2
    refine .load64 fun _ _ => ?_
    simp
  refine .call_pure (hf _) (.store64 fun _ _ => ?_)
  simp
  exact .call_pure (hf _) (.last (Sim.store64 fun _ _ => Sim.nil ⟨rfl, _, rfl⟩))

theorem sim_reverseBlockBody_32 (src dst : UInt32) (vm : Vm) :
    Sim p (Prelude.reverseBlockBody f 4)
      (vm.frame [.i32 src, .i32 dst, .i64 0, .i64 0, .i64 0, .i64 0] [])
      (Leaves (fun _ => []) 0) ((reverseBlock 32 src dst).run vm) := by
  rw [reverseBlock_32]
  simp [Prelude.reverseBlockBody, range_succ]
  iterate 4
    refine .load64 fun _ _ => ?_
    simp
  iterate 3
    refine .call_pure (hf _) (.store64 fun _ _ => ?_)
    simp
  exact .call_pure (hf _) (.last (Sim.store64 fun _ _ => Sim.nil ⟨rfl, _, rfl⟩))

end

/-! ## Zeros -/

theorem sim_requireZero_loop (left : Nat) (a n : UInt32) (hn : n.toNat = left) (vm : Vm) :
    Sim p [.loop .void ([push 1, eqz, brIf 1, push 0, load8 0, trapIf, push 0, const 1, add, pop 0,
        push 1, const 1, sub, pop 1] ++ [br 0])] (vm.frame [.i32 a, .i32 n] [])
      (Jump 0 fun _ vm' => vm'.frame [.i32 (a + n), .i32 0] [])
      ((requireZero left a).run vm) := by
  induction left generalizing a n vm with
  | zero =>
    have hzero : n = 0 := UInt32.toNat_inj.mp (by simpa using hn)
    subst hzero
    refine .loop_exit ?_
    simp [requireZero]
    exact .jump (by simp) (step_brIf (by simp)) rfl
  | succ left ih =>
    have hne : n ≠ 0 := by
      rintro rfl
      simp at hn
    have hpred : (n - 1).toNat = left := by
      rw [UInt32.toNat_sub_of_le _ _ (by rw [UInt32.le_iff_toNat_le]; simp; omega)]
      simp
      omega
    have hround : Sim p ([push 1, eqz, brIf 1, push 0, load8 0, trapIf, push 0, const 1, add, pop 0,
        push 1, const 1, sub, pop 1] ++ [br 0]) (vm.frame [.i32 a, .i32 n] [])
        (Jump 0 fun _ vm' => vm'.frame [.i32 (a + 1), .i32 (n - 1)] [])
        ((load8 a 0 >>= fun b => trapWhen (b != 0)).run vm) := by
      simp [Value.ofBool, hne]
      refine .load8 fun b _ => Sim.last (Sim.trapIf fun _ => ?_)
      simp
      exact .jump (by simp) rfl rfl
    rw [requireZero, ← bind_assoc]
    refine .loop_again hround fun _ vm' _ => ?_
    have := ih (a + 1) (n - 1) hpred vm'
    rwa [UInt32.add_assoc, UInt32.add_comm 1, UInt32.sub_add_cancel] at this

theorem sim_requireZeroBody (a n : UInt32) (vm : Vm) :
    Sim p Prelude.requireZeroBody (vm.frame [.i32 a, .i32 n] [])
      (Leaves (fun _ => []) 0) ((requireZero n.toNat a).run vm) :=
  Sim.last (Sim.block _ (sim_requireZero_loop n.toNat a n rfl vm)
    fun _ _ _ => Sim.nil ⟨rfl, _, rfl⟩)

end

end MoveCodec.Machine
