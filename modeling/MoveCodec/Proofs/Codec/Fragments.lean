import MoveCodec.Proofs.Codec.Computations

/-!
# Pieces of generated code

The pieces that the templates of packers and unpackers share, each with the computation it does.
The functions they call are given by what they compute.
-/
namespace MoveCodec.Machine

open Wasm Wasm.Emit Compute List

variable {α : Type} {s dst d src z s32 width : UInt32} {code : Code} {m : Compute α}
  {P : α → List Value → Prop} {p : Program} {vm : Vm}

/-- The function reverses the bytes of a 32-bit number. -/
def IsSwap32 (p : Program) (f : UInt32) : Prop :=
  ∀ v, Computes p f [.i32 v] (pure (swap32 v)) fun a => [.i32 a]

/-- The function reverses the bytes of a 64-bit number. -/
def IsSwap64 (p : Program) (f : UInt32) : Prop :=
  ∀ v, Computes p f [.i64 v] (pure (swap64 v)) fun a => [.i64 a]

/-- The function reverses `n` bytes in memory. -/
def IsReverse (p : Program) (n : Nat) (f : UInt32) : Prop :=
  ∀ src dst, Computes p f [.i32 src, .i32 dst] (reverseBlock n src dst) fun _ => []

def IsRequireZero (p : Program) (f : UInt32) : Prop :=
  ∀ a n, Computes p f [.i32 a, .i32 n] (requireZero n.toNat a) fun _ => []

def HasAllocator (p : Program) : Prop :=
  ∀ n, Computes p Prelude.allocate [.i32 n] (allocate n) fun a => [.i32 a]

section

variable {β : Type} {p : Program} {vm : Vm} {ls k : List Value} {rest : Code}
  {final : β × Vm → Exit → Prop} {r : Except Halt (β × Vm)}

theorem sim_local {i : UInt32} {v : Value} (h : ls[i.toNat]? = some v) :
    Sim p (push i :: rest) (vm.frame ls k) final r ↔
      Sim p rest (vm.frame ls (v :: k)) final r := by
  refine sim_op (by simp) (step_localGet ?_)
  simpa [Vm.frame] using h

theorem sim_addr {x n a : UInt32} (h : ls[x.toNat]? = some (.i32 a)) :
    Sim p (addr x n ++ rest) (vm.frame ls k) final r ↔
      Sim p rest (vm.frame ls (.i32 (a + n) :: k)) final r := by
  unfold addr
  split
  · rename_i hn
    subst hn
    rw [cons_append, sim_local h, nil_append, UInt32.add_zero]
  · simp only [cons_append, nil_append]
    rw [sim_local h, sim_const, sim_bin rfl]

end

/-! ## Locals -/

/-- There are as many locals as before, and those below `n` are the same. -/
structure Kept (n : Nat) (ls ls' : List Value) : Prop where
  length_eq : ls'.length = ls.length
  get_eq : ∀ i < n, ls'[i]? = ls[i]?

namespace Kept

variable {n m : Nat} {ls ls' ls'' : List Value}

theorem refl (n : Nat) (ls : List Value) : Kept n ls ls := ⟨rfl, fun _ _ => rfl⟩

theorem trans (h : Kept n ls ls') (h' : Kept m ls' ls'') (hle : n ≤ m) : Kept n ls ls'' :=
  ⟨h'.length_eq.trans h.length_eq,
    fun i hi => (h'.get_eq i (hi.trans_le hle)).trans (h.get_eq i hi)⟩

/-- A local that is not among them is set. -/
theorem set (h : Kept n ls ls') {i : Nat} (hi : n ≤ i) (v : Value) : Kept n ls (ls'.set i v) :=
  ⟨by rw [length_set, h.length_eq],
    fun j hj => by rw [getElem?_set_ne (by omega), h.get_eq j hj]⟩

end Kept

/-- The run goes on as a computation does. Locals below `n` and the stack are as they were, and the
locals have a property that depends on the result. -/
def Going {α : Type} (n : Nat) (ls k : List Value) (P : α → List Value → Prop) (r : α × Vm)
    (e : Exit) : Prop :=
  ∃ ls', Kept n ls ls' ∧ P r.1 ls' ∧ e = .next (r.2.frame ls' k)

/-- Code after code that changes locals. -/
theorem Sim.append_going {β : Type} {ls k : List Value} {s : State} {rest : Code}
    {f : α → Compute β} {final : β × Vm → Exit → Prop} {n : Nat}
    (hcode : Sim p code s (Going n ls k P) (m.run vm))
    (h : ∀ x vm' ls', m.run vm = .ok (x, vm') → Kept n ls ls' → P x ls' →
      Sim p rest (vm'.frame ls' k) final ((f x).run vm')) :
    Sim p (code ++ rest) s final ((m >>= f).run vm) := by
  obtain ⟨e, ⟨i, hi⟩, hmeets⟩ := hcode
  cases hm : m.run vm with
  | error err =>
    rw [hm] at hmeets
    refine ⟨.halt err, ⟨i, fun fuel hfuel => ?_⟩, by rw [run_bind_error hm]; rfl⟩
    obtain ⟨store, hrun⟩ := Result.exit_eq_halt.mp ((hi fuel hfuel).trans hmeets)
    rw [run_append, hrun]
    rfl
  | ok r =>
    obtain ⟨x, vm'⟩ := r
    rw [hm] at hmeets
    obtain ⟨ls', hkept, hP, rfl⟩ := hmeets
    obtain ⟨e, ⟨j, hj⟩, hmeets⟩ := h x vm' ls' hm hkept hP
    refine ⟨e, ⟨max i j, fun fuel hfuel => ?_⟩, by rwa [run_bind_ok hm]⟩
    rw [run_append, Result.exit_eq_next.mp (hi fuel (by omega))]
    exact hj fuel (by omega)

/-- Code that leaves the locals alone. -/
theorem Sim.going {ls k : List Value} {s : State} (n : Nat)
    (h : Sim p code s (Next fun _ vm' => vm'.frame ls k) (m.run vm)) :
    Sim p code s (Going n ls k fun _ _ => True) (m.run vm) :=
  h.mono fun _ _ he => ⟨ls, .refl n ls, trivial, he⟩

/-- A body whose last piece changes locals. -/
theorem Sim.leaves_going {ls : List Value} {s : State} {n : Nat}
    (h : Sim p code s (Going n ls [] P) (m.run vm)) :
    Sim p code s (Leaves (fun _ => []) 0) (m.run vm) :=
  h.mono fun _ _ ⟨ls', _, _, he⟩ => ⟨rfl, ls', he⟩

/-! ## Pieces -/

section

variable {β : Type} {p : Program} {vm : Vm} {ls k : List Value} {rest : Code}
  {final : β × Vm → Exit → Prop} {r : Except Halt (β × Vm)}

/-- Looking at the wire leaves no trace in the state. -/
theorem sim_look {l : Look} {f : Unit → Compute β}
    (h : Sim p code ({ vm with seen := l :: vm.seen }.frame ls k) final
      ((f ()).run { vm with seen := l :: vm.seen })) :
    Sim p code (vm.frame ls k) final ((look l >>= f).run vm) := h

end

section

variable {p : Program} {ls k : List Value} {n : UInt32} (vm : Vm)

theorem sim_alloc (halloc : HasAllocator p) (n ptr : UInt32) :
    Sim p (Prelude.alloc n ptr) (vm.frame ls k)
      (Next fun a vm' => vm'.frame (ls.set ptr.toNat (.i32 a)) k) ((allocate n).run vm) := by
  rw [Prelude.alloc, sim_const]
  refine .last (Sim.call (halloc n) fun a vm' _ => ?_)
  simp
  exact .nil rfl

theorem sim_fillZero {n : UInt32} (off : UInt32) (hn : n ≠ 0) (hd : ls[dst.toNat]? = some (.i32 d)) :
    Sim p (Prelude.fillZero dst off n) (vm.frame ls k) (Next fun _ vm' => vm'.frame ls k)
      ((zero (d + off) n).run vm) := by
  rw [Prelude.fillZero, if_neg hn, sim_addr hd, sim_const, sim_const]
  exact .last (Sim.fillZero fun _ _ => Sim.nil rfl)

/-- Filling from where a local points to. -/
theorem sim_fillZero_here {n : UInt32} (hn : n ≠ 0) (hd : ls[dst.toNat]? = some (.i32 d)) :
    Sim p (Prelude.fillZero dst 0 n) (vm.frame ls k) (Next fun _ vm' => vm'.frame ls k)
      ((zero d n).run vm) := by
  have h := sim_fillZero (p := p) (k := k) vm 0 hn hd
  rwa [UInt32.add_zero] at h

theorem sim_copyBlock (dstOff srcOff n : UInt32)
    (hd : ls[dst.toNat]? = some (.i32 d)) (hs : ls[src.toNat]? = some (.i32 s)) :
    Sim p (Prelude.copyBlock dst dstOff src srcOff n) (vm.frame ls k)
      (Next fun _ vm' => vm'.frame ls k) ((copy (d + dstOff) (s + srcOff) n).run vm) := by
  rw [Prelude.copyBlock, append_assoc, sim_addr hd, sim_addr hs, sim_const]
  exact .last (Sim.copyBytes fun _ _ => Sim.nil rfl)

/-- Copying from where a local points to to where another does. -/
theorem sim_copyBlock_here (n : UInt32)
    (hd : ls[dst.toNat]? = some (.i32 d)) (hs : ls[src.toNat]? = some (.i32 s)) :
    Sim p (Prelude.copyBlock dst 0 src 0 n) (vm.frame ls k)
      (Next fun _ vm' => vm'.frame ls k) ((copy d s n).run vm) := by
  have h := sim_copyBlock (p := p) (k := k) vm 0 0 n hd hs
  rwa [UInt32.add_zero, UInt32.add_zero] at h

/-- A word behind where a local points to, at an address that does not wrap. -/
theorem sim_storeWordAt (hswap : IsSwap32 p s32) {value v : UInt32} (off : UInt32)
    (hplace : d.toNat + (off + 28).toNat = (d + off).toNat + 28)
    (hd : ls[dst.toNat]? = some (.i32 d)) (hv : ls[value.toNat]? = some (.i32 v)) :
    Sim p (Prelude.storeWord s32 dst off value) (vm.frame ls k) (Next fun _ vm' => vm'.frame ls k)
      ((storeWord (d + off) v).run vm) := by
  rw [Prelude.storeWord, storeWord]
  refine .append (sim_fillZero vm off (by decide) hd) fun _ vm' _ => ?_
  rw [sim_local hd, sim_local hv, show store32 (d + off) 28 (swap32 v) = store32 d (off + 28) (swap32 v)
    from congrArg (write · _) hplace.symm]
  exact .call_pure (hswap v) (Sim.last (Sim.store32 fun _ _ => Sim.nil rfl))

theorem sim_storeWord (hswap : IsSwap32 p s32) {value v : UInt32}
    (hd : ls[dst.toNat]? = some (.i32 d)) (hv : ls[value.toNat]? = some (.i32 v)) :
    Sim p (Prelude.storeWord s32 dst 0 value) (vm.frame ls k) (Next fun _ vm' => vm'.frame ls k)
      ((storeWord d v).run vm) := by
  have h := sim_storeWordAt (k := k) vm hswap 0 (by rw [UInt32.add_zero]; rfl) hd hv
  rwa [UInt32.add_zero] at h

/-- The check of any number of bytes; of none there is nothing to do. -/
theorem sim_requireZeroAt (hz : n ≠ 0 → IsRequireZero p z)
    (off : UInt32) (hs : ls[src.toNat]? = some (.i32 s)) :
    Sim p (Prelude.requireZeroAt z src off n) (vm.frame ls k) (Next fun _ vm' => vm'.frame ls k)
      ((requireZero n.toNat (s + off)).run vm) := by
  by_cases hn : n = 0
  · subst hn
    exact .nil rfl
  · rw [Prelude.requireZeroAt, if_neg hn, sim_addr hs, sim_const]
    exact .last (Sim.call (hz hn (s + off) n) fun _ _ _ => Sim.nil rfl)

theorem sim_requireZero_here (hz : n ≠ 0 → IsRequireZero p z)
    (hs : ls[src.toNat]? = some (.i32 s)) :
    Sim p (Prelude.requireZeroAt z src 0 n) (vm.frame ls k) (Next fun _ vm' => vm'.frame ls k)
      ((requireZero n.toNat s).run vm) := by
  have h := sim_requireZeroAt (k := k) vm hz 0 hs
  rwa [UInt32.add_zero] at h

/-- The code that pushes a word which must fit in `width` bytes. -/
theorem sim_loadWordAt (hswap : IsSwap32 p s32) (hz : IsRequireZero p z) (hwidth : width < 32)
    (off : UInt32) (hplace : s.toNat + (off + 28).toNat = (s + off).toNat + 28)
    (hs : ls[src.toNat]? = some (.i32 s)) :
    Sim p (Prelude.loadWord s32 z src off width) (vm.frame ls k)
      (Next fun x vm' => vm'.frame ls (.i32 x :: k)) ((loadWord (s + off) width.toNat).run vm) := by
  have hle : width ≤ 32 := UInt32.le_of_lt hwidth
  have hn : 32 - width.toNat = (32 - width).toNat := (UInt32.toNat_sub_of_le _ _ hle).symm
  have hne : 32 - width ≠ 0 := by
    rw [UInt32.lt_iff_toNat_lt] at hwidth
    intro h
    rw [h] at hn
    simp at hn hwidth
    omega
  have hcode : Prelude.loadWord s32 z src off width =
      Prelude.requireZeroAt z src off (32 - width) ++ [push src, load (off + 28), call s32] := by
    rw [Prelude.requireZeroAt, if_neg hne]
    simp [Prelude.loadWord]
  rw [hcode, loadWord, hn]
  refine sim_look (Sim.append (sim_requireZeroAt _ (fun _ => hz) off hs) fun _ vm' _ => ?_)
  rw [sim_local hs, map_eq_pure_bind, show load32 (s + off) 28 = load32 s (off + 28) from
    congrArg (fun a => (fun bs => UInt32.ofNat (Bytes.toNatLE bs)) <$> read a 4) hplace.symm]
  exact .load32 fun x _ => Sim.call_pure (hswap x) (Sim.nil rfl)

theorem sim_loadWord (hswap : IsSwap32 p s32) (hz : IsRequireZero p z) (hwidth : width < 32)
    (hs : ls[src.toNat]? = some (.i32 s)) :
    Sim p (Prelude.loadWord s32 z src 0 width) (vm.frame ls k)
      (Next fun x vm' => vm'.frame ls (.i32 x :: k)) ((loadWord s width.toNat).run vm) := by
  have h := sim_loadWordAt (k := k) vm hswap hz hwidth 0 (by rw [UInt32.add_zero]; rfl) hs
  rwa [UInt32.add_zero] at h

end

end MoveCodec.Machine
