import MoveCodec.Machine.Instance
import MoveCodec.Proofs.Machine.Fuel

/-!
# Generated code as computations

The instances of generated modules have three globals, so their state is a `Vm`: memory, the next
free address, the reader, the end of the call data and the host. A `Compute` is a computation on
such a state that can halt. `Sim` says that code does what a computation does: with enough fuel it
ends with the same result in the same state, or halts for the same reason. The rules below take one
instruction, or one piece of a template, from the code and the matching step from the computation.
-/
namespace MoveCodec.Machine

open Wasm Bytes

variable {n : Nat} {h : Halt} {o : Op} {i a b : UInt32} {v : Value} {r : Result} {s : State}

/-- Bytes of the wire that a decoder looked at. -/
structure Look where
  start : Nat
  size : Nat
  /-- They are what an offset points to. -/
  target : Bool := false
  deriving DecidableEq

/-- The state of an instance with its globals by name. The bytes of the wire that were looked at
are kept beside it; no code can see them. -/
structure Vm where
  memory : Memory
  /-- The next free address. -/
  top : UInt32
  reader : UInt32
  /-- The first address after the call data. -/
  stop : UInt32
  host : Host
  seen : List Look := []

namespace Vm

def store (vm : Vm) : Store :=
  ⟨vm.memory, #[.i32 vm.top, .i32 vm.reader, .i32 vm.stop], vm.host⟩

def frame (vm : Vm) (locals stack : List Value) : State := ⟨vm.store, locals.toArray, stack⟩

end Vm

/-- Computations on the state of an instance. -/
structure Compute (α : Type) where
  run : Vm → Except Halt (α × Vm)

namespace Compute

variable {α β : Type} {f : α → Compute β} {m : Compute α}

/-- A computation after another, unless that halts. -/
def andThen (m : Compute α) (f : α → Compute β) : Compute β := ⟨fun vm =>
  match m.run vm with
  | .ok (x, vm') => (f x).run vm'
  | .error e => .error e⟩

instance : Monad Compute where
  pure x := ⟨fun vm => .ok (x, vm)⟩
  bind := andThen

@[simp] theorem run_pure (x : α) (vm : Vm) : (pure x : Compute α).run vm = .ok (x, vm) := rfl

theorem run_bind (m : Compute α) (f : α → Compute β) (vm : Vm) :
    (m >>= f).run vm = match m.run vm with
      | .ok (x, vm') => (f x).run vm'
      | .error e => .error e := rfl

theorem run_bind_ok {x : α} {vm vm' : Vm} (h : m.run vm = .ok (x, vm')) :
    (m >>= f).run vm = (f x).run vm' := by
  rw [run_bind, h]

theorem run_bind_error {e : Halt} {vm : Vm} (h : m.run vm = .error e) :
    (m >>= f).run vm = .error e := by
  rw [run_bind, h]

/-- A computation in two steps gives a result when both do. -/
theorem run_bind_eq_ok {vm : Vm} {r : β × Vm} :
    (m >>= f).run vm = .ok r ↔ ∃ x vm', m.run vm = .ok (x, vm') ∧ (f x).run vm' = .ok r := by
  rw [run_bind]
  cases hm : m.run vm with
  | ok p =>
    obtain ⟨x, vm'⟩ := p
    constructor
    · exact fun h => ⟨x, vm', rfl, h⟩
    · rintro ⟨_, _, ⟨rfl, rfl⟩, h⟩
      exact h
  | error e => simp

@[ext] theorem ext {n : Compute α} (h : ∀ vm, m.run vm = n.run vm) : m = n := by
  obtain ⟨f⟩ := m
  obtain ⟨g⟩ := n
  exact congrArg mk (funext h)

theorem id_map_compute (m : Compute α) : id <$> m = m := by
  ext vm
  change (match m.run vm with
    | .ok (x, vm') => .ok (x, vm')
    | .error e => .error e) = m.run vm
  cases m.run vm <;> rfl

theorem bind_assoc_compute {γ : Type} (m : Compute α) (f : α → Compute β) (g : β → Compute γ) :
    m >>= f >>= g = m >>= fun x => f x >>= g := by
  ext vm
  simp only [run_bind]
  cases m.run vm <;> rfl

instance : LawfulMonad Compute :=
  .mk' Compute id_map_compute (fun _ _ => rfl) bind_assoc_compute

/-- Every result has a property. -/
def Gives (m : Compute α) (P : α → Prop) : Prop := ∀ vm x vm', m.run vm = .ok (x, vm') → P x

theorem Gives.pure {P : α → Prop} {x : α} (h : P x) : Gives (Pure.pure x) P := by
  rintro vm y vm' ⟨⟩
  exact h

theorem Gives.bind {P : β → Prop} (h : ∀ x, Gives (f x) P) : Gives (m >>= f) P := by
  intro vm y vm' hy
  obtain ⟨x, vm₁, _, hx⟩ := run_bind_eq_ok.mp hy
  exact h x vm₁ y vm' hx

theorem Gives.map {P : β → Prop} {f : α → β} (h : ∀ x, P (f x)) : Gives (f <$> m) P := by
  rw [map_eq_pure_bind]
  exact Gives.bind fun x => Gives.pure (h x)

def state : Compute Vm := ⟨fun vm => .ok (vm, vm)⟩

@[simp] theorem run_state_bind (f : Vm → Compute β) (vm : Vm) :
    (state >>= f).run vm = (f vm).run vm := rfl

/-- Changes the state. -/
def update (change : Vm → Vm) : Compute Unit := ⟨fun vm => .ok ((), change vm)⟩

@[simp] theorem run_update_bind (change : Vm → Vm) (f : Unit → Compute β) (vm : Vm) :
    (update change >>= f).run vm = (f ()).run (change vm) := rfl

def trapWhen (b : Bool) : Compute Unit :=
  ⟨fun vm => if b then .error (.trap .unreachable) else .ok ((), vm)⟩

/-- The `n` bytes at `a`. -/
def read (a n : Nat) : Compute Bytes := ⟨fun vm =>
  match vm.memory.read? a n with
  | some bs => .ok (bs, vm)
  | none => .error (.trap .outOfBounds)⟩

def write (a : Nat) (bs : Bytes) : Compute Unit := ⟨fun vm =>
  if a + bs.length ≤ vm.memory.size then .ok ((), { vm with memory := vm.memory.splice a bs })
  else .error (.trap .outOfBounds)⟩

def load8 (a offset : UInt32) : Compute UInt32 :=
  (fun bs => UInt32.ofNat (toNatLE bs)) <$> read (a.toNat + offset.toNat) 1

def load32 (a offset : UInt32) : Compute UInt32 :=
  (fun bs => UInt32.ofNat (toNatLE bs)) <$> read (a.toNat + offset.toNat) 4

def load64 (a offset : UInt32) : Compute UInt64 :=
  (fun bs => UInt64.ofNat (toNatLE bs)) <$> read (a.toNat + offset.toNat) 8

def store8 (a offset v : UInt32) : Compute Unit :=
  write (a.toNat + offset.toNat) (ofNatLE 1 v.toNat)

def store32 (a offset v : UInt32) : Compute Unit :=
  write (a.toNat + offset.toNat) (ofNatLE 4 v.toNat)

def store64 (a offset : UInt32) (v : UInt64) : Compute Unit :=
  write (a.toNat + offset.toNat) (ofNatLE 8 v.toNat)

/-- Copies `n` bytes. -/
def copy (dst src n : UInt32) : Compute Unit := do
  write dst.toNat (← read src.toNat n.toNat)

/-- Fills `n` bytes with zeros. -/
def zero (dst n : UInt32) : Compute Unit := write dst.toNat (List.replicate n.toNat 0)

def host (f : HostFunc) (args : List UInt32) : Compute Unit := ⟨fun vm =>
  match vm.host.call vm.memory f args with
  | .ok (memory, host) => .ok ((), { vm with memory, host })
  | .error e => .error (.host e)⟩

def look (l : Look) : Compute Unit := update fun vm => { vm with seen := l :: vm.seen }

end Compute

/-! ## Ends of runs -/

/-- How a run ends, without the store of a halt. -/
inductive Exit where
  | next (s : State)
  | jump (label : Nat) (s : State)
  | ret (s : State)
  | halt (h : Halt)

def Result.exit : Result → Exit
  | .next s => .next s
  | .jump l s => .jump l s
  | .ret s => .ret s
  | .halt h _ => .halt h

@[simp] theorem Result.exit_eq_next : r.exit = .next s ↔ r = .next s := by
  cases r <;> simp [Result.exit]

@[simp] theorem Result.exit_eq_jump {l : Nat} : r.exit = .jump l s ↔ r = .jump l s := by
  cases r <;> simp [Result.exit]

@[simp] theorem Result.exit_eq_halt : r.exit = .halt h ↔ ∃ store, r = .halt h store := by
  cases r <;> simp [Result.exit]

def Ends (p : Program) (code : Code) (s : State) (e : Exit) : Prop :=
  ∃ n, ∀ fuel, n ≤ fuel → (run p fuel code s).exit = e

/-- The end of a run is what a computation gives; `final` tells how a result shows. -/
def Meets {α : Type} (final : α → Exit → Prop) : Except Halt α → Exit → Prop
  | .ok a, e => final a e
  | .error h, e => e = .halt h

/-- With enough fuel the code does what a computation gives. -/
def Sim {α : Type} (p : Program) (code : Code) (s : State) (final : α → Exit → Prop)
    (x : Except Halt α) : Prop :=
  ∃ e, Ends p code s e ∧ Meets final x e

section

variable {α β : Type} {p : Program} {s s' : State} {rest : Code} {final : α → Exit → Prop}
  {x : Except Halt α}

theorem run_cons (fuel : Nat) (c : Step) (rest : Code) (s : State) :
    run p fuel (c :: rest) s = match runStep p fuel c s with
      | .next s' => run p fuel rest s'
      | r => r := rfl

theorem Sim.nil (h : Meets final x (.next s)) : Sim p [] s final x :=
  ⟨.next s, ⟨0, fun _ _ => rfl⟩, h⟩

/-- A step that goes on leaves the rest to the code behind it. -/
theorem sim_cons_next {c : Step} (h : ∀ fuel, n ≤ fuel → runStep p fuel c s = .next s') :
    Sim p (c :: rest) s final x ↔ Sim p rest s' final x := by
  have hrun : ∀ fuel, n ≤ fuel → run p fuel (c :: rest) s = run p fuel rest s' := by
    intro fuel hf
    rw [run_cons, h fuel hf]
  constructor
  · rintro ⟨e, ⟨k, hk⟩, hm⟩
    exact ⟨e, ⟨max n k, fun fuel hf => by rw [← hrun fuel (by omega), hk fuel (by omega)]⟩, hm⟩
  · rintro ⟨e, ⟨k, hk⟩, hm⟩
    exact ⟨e, ⟨max n k, fun fuel hf => by rw [hrun fuel (by omega), hk fuel (by omega)]⟩, hm⟩

theorem Sim.halt {c : Step}
    (hc : ∀ fuel, n ≤ fuel → (runStep p fuel c s).exit = .halt h) (hx : x = .error h) :
    Sim p (c :: rest) s final x := by
  refine ⟨.halt h, ⟨n, fun fuel hf => ?_⟩, by simp [hx, Meets]⟩
  have := hc fuel hf
  rw [run_cons]
  cases hr : runStep p fuel c s with
  | halt h' st => simpa [hr] using this
  | _ => simp [hr, Result.exit] at this

theorem sim_op (ho : ∀ f, o ≠ .call f) (h : step o s = .next s') :
    Sim p (.op o :: rest) s final x ↔ Sim p rest s' final x := by
  apply sim_cons_next (n := 0)
  intro fuel _
  rw [runStep.eq_2 _ _ _ _ ho, h]

theorem Sim.op_halt (ho : ∀ f, o ≠ .call f)
    (hs : (step o s).exit = .halt h) (hx : x = .error h) : Sim p (.op o :: rest) s final x := by
  apply Sim.halt (n := 0) (h := h) _ hx
  intro fuel _
  rw [runStep.eq_2 _ _ _ _ ho, hs]

/-! ## Instructions that cannot fail -/

theorem step_localGet (h : s.locals[i.toNat]? = some v) :
    step (.localGet i) s = .next { s with stack := v :: s.stack } := by
  delta step
  simp only [h]
  rfl

theorem step_i32Bin {o : I32Op} {st : Store} {locals : Array Value} {k : List Value} {v : UInt32}
    (h : I32Op.eval? o a b = some v) :
    step (.i32Bin o) ⟨st, locals, .i32 b :: .i32 a :: k⟩ = .next ⟨st, locals, .i32 v :: k⟩ := by
  delta step
  simp only [h]
  rfl

variable {vm : Vm} {ls k : List Value} {r : Except Halt α}

@[simp] theorem sim_push (hi : i.toNat < ls.length) :
    Sim p (.op (.localGet i) :: rest) (vm.frame ls k) final r ↔
      Sim p rest (vm.frame ls ((ls[i.toNat]?).getD (.i32 0) :: k)) final r := by
  refine sim_op (by simp) ?_
  have h : (vm.frame ls k).locals[i.toNat]? = some ((ls[i.toNat]?).getD (.i32 0)) := by
    simp [Vm.frame, hi]
  exact step_localGet h

@[simp] theorem sim_pop : Sim p (.op (.localSet i) :: rest) (vm.frame ls (v :: k)) final r ↔
      Sim p rest (vm.frame (ls.set i.toNat v) k) final r := by
  refine sim_op (by simp) ?_
  simp only [Vm.frame]
  rw [← List.setIfInBounds_toArray]
  rfl

@[simp] theorem sim_keep : Sim p (.op (.localTee i) :: rest) (vm.frame ls (v :: k)) final r ↔
      Sim p rest (vm.frame (ls.set i.toNat v) (v :: k)) final r := by
  refine sim_op (by simp) ?_
  simp only [Vm.frame]
  rw [← List.setIfInBounds_toArray]
  rfl

@[simp] theorem sim_const {v : UInt32} :
    Sim p (.op (.i32Const v) :: rest) (vm.frame ls k) final r ↔
      Sim p rest (vm.frame ls (.i32 v :: k)) final r :=
  sim_op (by simp) rfl

@[simp] theorem sim_const64 {v : UInt64} :
    Sim p (.op (.i64Const v) :: rest) (vm.frame ls k) final r ↔
      Sim p rest (vm.frame ls (.i64 v :: k)) final r :=
  sim_op (by simp) rfl

theorem step_globalGet (h : s.store.globals[i.toNat]? = some v) :
    step (.globalGet i) s = .next { s with stack := v :: s.stack } := by
  delta step
  simp only [h]
  rfl

theorem step_globalSet {globals : Array Value}
    (h : vm.store.globals.setIfInBounds i.toNat v = globals) :
    step (.globalSet i) (vm.frame ls (v :: k)) =
      .next ⟨{ vm.store with globals }, ls.toArray, k⟩ := by
  rw [← h]
  rfl

@[simp] theorem sim_pushTop :
    Sim p (.op (.globalGet 0) :: rest) (vm.frame ls k) final r ↔
      Sim p rest (vm.frame ls (.i32 vm.top :: k)) final r :=
  sim_op (by simp) (step_globalGet (by simp [Vm.frame, Vm.store]))

@[simp] theorem sim_pushReader :
    Sim p (.op (.globalGet 1) :: rest) (vm.frame ls k) final r ↔
      Sim p rest (vm.frame ls (.i32 vm.reader :: k)) final r :=
  sim_op (by simp) (step_globalGet (by simp [Vm.frame, Vm.store]))

@[simp] theorem sim_pushStop :
    Sim p (.op (.globalGet 2) :: rest) (vm.frame ls k) final r ↔
      Sim p rest (vm.frame ls (.i32 vm.stop :: k)) final r :=
  sim_op (by simp) (step_globalGet (by simp [Vm.frame, Vm.store]))

@[simp] theorem sim_popTop {v : UInt32} :
    Sim p (.op (.globalSet 0) :: rest) (vm.frame ls (.i32 v :: k)) final r ↔
      Sim p rest ({ vm with top := v }.frame ls k) final r :=
  sim_op (by simp) (step_globalSet (by simp [Vm.store]))

@[simp] theorem sim_popReader {v : UInt32} :
    Sim p (.op (.globalSet 1) :: rest) (vm.frame ls (.i32 v :: k)) final r ↔
      Sim p rest ({ vm with reader := v }.frame ls k) final r :=
  sim_op (by simp) (step_globalSet (by simp [Vm.store]))

@[simp] theorem sim_eqz : Sim p (.op .i32Eqz :: rest) (vm.frame ls (.i32 a :: k)) final r ↔
      Sim p rest (vm.frame ls (Value.ofBool (a == 0) :: k)) final r :=
  sim_op (by simp) rfl

@[simp] theorem sim_rel {o : I32Rel} :
    Sim p (.op (.i32Rel o) :: rest) (vm.frame ls (.i32 b :: .i32 a :: k)) final r ↔
      Sim p rest (vm.frame ls (Value.ofBool (I32Rel.eval o a b) :: k)) final r :=
  sim_op (by simp) rfl

/-- Every operator but the division. -/
theorem sim_bin {o : I32Op} {v : UInt32} (h : I32Op.eval? o a b = some v) :
    Sim p (.op (.i32Bin o) :: rest) (vm.frame ls (.i32 b :: .i32 a :: k)) final r ↔
      Sim p rest (vm.frame ls (.i32 v :: k)) final r := by
  refine sim_op (by simp) ?_
  exact step_i32Bin h

attribute [simp] I32Op.eval?

@[simp] theorem sim_eval {o : I32Op} (ho : o ≠ .divU) :
    Sim p (.op (.i32Bin o) :: rest) (vm.frame ls (.i32 b :: .i32 a :: k)) final r ↔
      Sim p rest (vm.frame ls (.i32 ((I32Op.eval? o a b).getD 0) :: k)) final r := by
  refine sim_bin ?_
  cases o <;> simp_all

@[simp] theorem sim_rel64 {o : I64Rel} {a b : UInt64} :
    Sim p (.op (.i64Rel o) :: rest) (vm.frame ls (.i64 b :: .i64 a :: k)) final r ↔
      Sim p rest (vm.frame ls (Value.ofBool (I64Rel.eval o a b) :: k)) final r :=
  sim_op (by simp) rfl

@[simp] theorem sim_bin64 {o : I64Op} {a b : UInt64} :
    Sim p (.op (.i64Bin o) :: rest) (vm.frame ls (.i64 b :: .i64 a :: k)) final r ↔
      Sim p rest (vm.frame ls (.i64 (I64Op.eval o a b) :: k)) final r :=
  sim_op (by simp) rfl

@[simp] theorem sim_wrap {a : UInt64} :
    Sim p (.op .wrap :: rest) (vm.frame ls (.i64 a :: k)) final r ↔
      Sim p rest (vm.frame ls (.i32 a.toUInt32 :: k)) final r :=
  sim_op (by simp) rfl

@[simp] theorem sim_extend : Sim p (.op .extend :: rest) (vm.frame ls (.i32 a :: k)) final r ↔
      Sim p rest (vm.frame ls (.i64 a.toUInt64 :: k)) final r :=
  sim_op (by simp) rfl

@[simp] theorem sim_memorySize :
    Sim p (.op .memorySize :: rest) (vm.frame ls k) final r ↔
      Sim p rest (vm.frame ls (.i32 (UInt32.ofNat vm.memory.pages.size) :: k)) final r :=
  sim_op (by simp) rfl

end

/-! ## Instructions that can trap -/

section

open Compute

variable {α β : Type} {p : Program} {vm vm' : Vm} {ls k : List Value} {rest : Code}
  {final : β × Vm → Exit → Prop} {a b v off al : UInt32} {f : Unit → Compute β}

/-- The rules are for computations that go on; the last step goes on to nothing. -/
theorem Sim.last {code : Code} {m : Compute β} (h : Sim p code s final ((m >>= pure).run vm)) :
    Sim p code s final (m.run vm) := by
  rwa [bind_pure] at h

theorem read_ok {i : Nat} {bs : Bytes} (h : (read i n).run vm = .ok (bs, vm')) :
    vm.memory.read? i n = some bs ∧ vm' = vm := by
  simp only [Compute.read] at h
  split at h
  · simp_all
  · simp at h

theorem Sim.load {op : LoadOp} {m : Compute α} {f : α → Compute β} {of : Bytes → α}
    (hm : m = of <$> read (a.toNat + off.toNat) (LoadOp.width op)) {val : α → Value}
    (hval : ∀ bs, LoadOp.value op bs = val (of bs))
    (h : ∀ x, m.run vm = .ok (x, vm) → Sim p rest (vm.frame ls (val x :: k)) final ((f x).run vm)) :
    Sim p (.op (.load op al off) :: rest) (vm.frame ls (.i32 a :: k)) final
      ((m >>= f).run vm) := by
  have hstep : step (.load op al off) (vm.frame ls (.i32 a :: k)) =
    match vm.memory.read? (a.toNat + off.toNat) (LoadOp.width op) with
    | some bs => .next (vm.frame ls (LoadOp.value op bs :: k))
    | none => .halt (.trap .outOfBounds) vm.store := rfl
  have hrun : m.run vm = (vm.memory.read? (a.toNat + off.toNat) (LoadOp.width op)).elim
      (.error (.trap .outOfBounds)) fun bs => .ok (of bs, vm) := by
    rw [hm, map_eq_pure_bind, run_bind]
    simp only [Compute.read]
    cases vm.memory.read? (a.toNat + off.toNat) (LoadOp.width op) <;> rfl
  cases hr : vm.memory.read? (a.toNat + off.toNat) (LoadOp.width op) with
  | none =>
    rw [hr] at hstep hrun
    exact .op_halt (by simp) (congrArg _ hstep) (run_bind_error hrun)
  | some bs =>
    rw [hr] at hstep hrun
    rw [run_bind_ok hrun, sim_op (by simp) hstep, hval]
    exact h _ hrun

theorem Sim.load8 {f : UInt32 → Compute β}
    (h : ∀ x, (load8 a off).run vm = .ok (x, vm) →
      Sim p rest (vm.frame ls (.i32 x :: k)) final ((f x).run vm)) :
    Sim p (.op (.load .i32From8 al off) :: rest) (vm.frame ls (.i32 a :: k)) final
      ((load8 a off >>= f).run vm) :=
  Sim.load (by rw [Compute.load8, LoadOp.width]) (fun _ => rfl) h

theorem Sim.load32 {f : UInt32 → Compute β}
    (h : ∀ x, (load32 a off).run vm = .ok (x, vm) →
      Sim p rest (vm.frame ls (.i32 x :: k)) final ((f x).run vm)) :
    Sim p (.op (.load .i32 al off) :: rest) (vm.frame ls (.i32 a :: k)) final
      ((load32 a off >>= f).run vm) :=
  Sim.load (by rw [Compute.load32, LoadOp.width]) (fun _ => rfl) h

theorem Sim.load64 {f : UInt64 → Compute β}
    (h : ∀ x, (load64 a off).run vm = .ok (x, vm) →
      Sim p rest (vm.frame ls (.i64 x :: k)) final ((f x).run vm)) :
    Sim p (.op (.load .i64 al off) :: rest) (vm.frame ls (.i32 a :: k)) final
      ((load64 a off >>= f).run vm) :=
  Sim.load (by rw [Compute.load64, LoadOp.width]) (fun _ => rfl) h

/-- An instruction that writes bytes. -/
theorem Sim.write (ho : ∀ f, o ≠ .call f) {i : Nat} {bs : Bytes} {s : State}
    (hs : step o s = (vm.frame ls k).write i bs k) {f : Unit → Compute β}
    (h : ∀ vm', (write i bs).run vm = .ok ((), vm') →
      Sim p rest (vm'.frame ls k) final ((f ()).run vm')) :
    Sim p (.op o :: rest) s final ((Compute.write i bs >>= f).run vm) := by
  have hwrite : (vm.frame ls k).write i bs k = if i + bs.length ≤ vm.memory.size then
      .next ({ vm with memory := vm.memory.splice i bs }.frame ls k)
    else .halt (.trap .outOfBounds) vm.store := rfl
  have hrun : (Compute.write i bs).run vm = if i + bs.length ≤ vm.memory.size then
      .ok ((), { vm with memory := vm.memory.splice i bs })
    else .error (.trap .outOfBounds) := rfl
  by_cases hfit : i + bs.length ≤ vm.memory.size
  · rw [if_pos hfit] at hwrite hrun
    rw [run_bind_ok hrun, sim_op ho (hs.trans hwrite)]
    exact h _ hrun
  · rw [if_neg hfit] at hwrite hrun
    exact .op_halt ho (congrArg _ (hs.trans hwrite)) (run_bind_error hrun)

theorem Sim.store8 {f : Unit → Compute β}
    (h : ∀ vm', (store8 a off v).run vm = .ok ((), vm') →
      Sim p rest (vm'.frame ls k) final ((f ()).run vm')) :
    Sim p (.op (.store .i32To8 al off) :: rest) (vm.frame ls (.i32 v :: .i32 a :: k)) final
      ((store8 a off v >>= f).run vm) := by
  rw [Compute.store8] at h ⊢
  exact .write (by simp) rfl h

theorem Sim.store32 {f : Unit → Compute β}
    (h : ∀ vm', (store32 a off v).run vm = .ok ((), vm') →
      Sim p rest (vm'.frame ls k) final ((f ()).run vm')) :
    Sim p (.op (.store .i32 al off) :: rest) (vm.frame ls (.i32 v :: .i32 a :: k)) final
      ((store32 a off v >>= f).run vm) := by
  rw [Compute.store32] at h ⊢
  exact .write (by simp) rfl h

theorem Sim.store64 {w : UInt64} {f : Unit → Compute β}
    (h : ∀ vm', (store64 a off w).run vm = .ok ((), vm') →
      Sim p rest (vm'.frame ls k) final ((f ()).run vm')) :
    Sim p (.op (.store .i64 al off) :: rest) (vm.frame ls (.i64 w :: .i32 a :: k)) final
      ((store64 a off w >>= f).run vm) := by
  rw [Compute.store64] at h ⊢
  exact .write (by simp) rfl h

theorem Sim.fillZero {n : UInt32} (h : ∀ vm', (zero a n).run vm = .ok ((), vm') →
      Sim p rest (vm'.frame ls k) final ((f ()).run vm')) :
    Sim p (.op .memoryFill :: rest) (vm.frame ls (.i32 n :: .i32 0 :: .i32 a :: k)) final
      ((zero a n >>= f).run vm) := by
  refine .write (by simp) ?_ h
  have hstep : step .memoryFill (vm.frame ls (.i32 n :: .i32 0 :: .i32 a :: k)) =
    if a.toNat + n.toNat ≤ vm.memory.size then
      (vm.frame ls k).write a.toNat (List.replicate n.toNat 0) k
    else .halt (.trap .outOfBounds) vm.store := rfl
  rw [hstep]
  split
  · rfl
  · rename_i hfit
    have : ¬ a.toNat + (List.replicate n.toNat (0 : UInt8)).length ≤ vm.memory.size := by
      simpa using hfit
    exact (if_neg this).symm

theorem Sim.copyBytes {n : UInt32} (h : ∀ vm', (copy a b n).run vm = .ok ((), vm') →
      Sim p rest (vm'.frame ls k) final ((f ()).run vm')) :
    Sim p (.op .memoryCopy :: rest) (vm.frame ls (.i32 n :: .i32 b :: .i32 a :: k)) final
      ((copy a b n >>= f).run vm) := by
  have hstep : step .memoryCopy (vm.frame ls (.i32 n :: .i32 b :: .i32 a :: k)) =
    match vm.memory.read? b.toNat n.toNat with
    | some bs => (vm.frame ls k).write a.toNat bs k
    | none => .halt (.trap .outOfBounds) vm.store := rfl
  cases hr : vm.memory.read? b.toNat n.toNat with
  | none =>
    rw [hr] at hstep
    have hread : (Compute.read b.toNat n.toNat).run vm = .error (.trap .outOfBounds) := by
      simp only [Compute.read, hr]
    exact .op_halt (by simp) (congrArg _ hstep) (run_bind_error (run_bind_error hread))
  | some bs =>
    rw [hr] at hstep
    have hread : (Compute.read b.toNat n.toNat).run vm = .ok (bs, vm) := by
      simp only [Compute.read, hr]
    have hcopy : (copy a b n).run vm = (Compute.write a.toNat bs).run vm := run_bind_ok hread
    rw [run_bind, hcopy, ← run_bind]
    exact .write (by simp) hstep fun vm' hvm => h vm' (hcopy.trans hvm)

end

end MoveCodec.Machine
