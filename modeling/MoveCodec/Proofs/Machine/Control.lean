import MoveCodec.Proofs.Machine.Compute
import MoveCodec.Wasm.Emit

/-!
# Branches, calls and loops

The rules for code with blocks inside. A function is described by `Computes`: called with these
arguments it does what a computation does. A loop that counts is the computation `Compute.upTo`.
-/
namespace MoveCodec.Machine

open Wasm Wasm.Emit Compute List

variable {s s' : State} {f c l : UInt32} {yes body : Code} {args ls' : List Value}

section

variable {α β γ : Type} {p : Program} {vm vm' : Vm} {ls k : List Value} {code rest : Code}
  {final : β × Vm → Exit → Prop} {m : Compute α} {after : α → Vm → State} {r : Except Halt (β × Vm)}
  {x : Except Halt γ}

/-! ## Sequences -/

theorem run_append (fuel : Nat) (code rest : Code) (s : State) :
    run p fuel (code ++ rest) s = match run p fuel code s with
      | .next s' => run p fuel rest s'
      | r => r := by
  induction code generalizing s with
  | nil => rfl
  | cons c code ih =>
    rw [cons_append, run_cons, run_cons]
    cases runStep p fuel c s with
    | next s' => exact ih s'
    | _ => rfl

theorem run_single (fuel : Nat) (c : Step) (s : State) :
    run p fuel [c] s = runStep p fuel c s := by
  rw [run_cons]
  cases runStep p fuel c s <;> rfl

/-- The run goes on in the state that the result of a computation gives. -/
def Next (after : α → Vm → State) (r : α × Vm) (e : Exit) : Prop := e = .next (after r.1 r.2)

/-- What a run gives that does what a computation does and then goes on. -/
theorem Sim.run_eq (h : Sim p code s (Next after) (m.run vm)) : ∃ n, ∀ fuel, n ≤ fuel →
      (∀ x vm', m.run vm = .ok (x, vm') → run p fuel code s = .next (after x vm')) ∧
      (∀ e, m.run vm = .error e → ∃ store, run p fuel code s = .halt e store) := by
  obtain ⟨e, ⟨n, hn⟩, hmeets⟩ := h
  refine ⟨n, fun fuel hf => ⟨fun x vm' hx => ?_, fun err herr => ?_⟩⟩
  · rw [hx] at hmeets
    exact Result.exit_eq_next.mp ((hn fuel hf).trans hmeets)
  · rw [herr] at hmeets
    exact Result.exit_eq_halt.mp ((hn fuel hf).trans hmeets)

/-- Code that goes on as a computation does leaves the rest to the code behind it. -/
theorem Sim.append {f : α → Compute β} (hcode : Sim p code s (Next after) (m.run vm))
    (h : ∀ x vm', m.run vm = .ok (x, vm') → Sim p rest (after x vm') final ((f x).run vm')) :
    Sim p (code ++ rest) s final ((m >>= f).run vm) := by
  obtain ⟨n, hn⟩ := hcode.run_eq
  cases hm : m.run vm with
  | error err =>
    refine ⟨.halt err, ⟨n, fun fuel hf => ?_⟩, by rw [run_bind_error hm]; rfl⟩
    obtain ⟨store, hrun⟩ := (hn fuel hf).2 err hm
    rw [run_append, hrun]
    rfl
  | ok r =>
    obtain ⟨x, vm'⟩ := r
    obtain ⟨e, ⟨n', hn'⟩, hmeets⟩ := h x vm' hm
    refine ⟨e, ⟨max n n', fun fuel hf => ?_⟩, by rwa [run_bind_ok hm]⟩
    rw [run_append, (hn fuel (by omega)).1 x vm' hm]
    exact hn' fuel (by omega)

/-! ## Branches -/

@[simp] theorem blockArity_void : blockArity p .void = (0, 0) := rfl

/-- A branch that is not taken. -/
theorem sim_when_skip : Sim p (when yes :: rest) (vm.frame ls (.i32 0 :: k)) final r ↔
      Sim p rest (vm.frame ls k) final r := by
  refine sim_cons_next (n := 1) fun fuel hf => ?_
  obtain ⟨n, rfl⟩ : ∃ n, fuel = n + 1 := ⟨fuel - 1, by omega⟩
  simp [runStep, Vm.frame, runWith, State.leave]

/-- Leaves a block that gives nothing, over the stack `below`. -/
def Result.closed (below : List Value) : Result → Result
  | .next c | .jump 0 c => .next (c.leave 0 below)
  | .jump (l + 1) c => .jump l c
  | r => r

def Exit.closed (below : List Value) : Exit → Exit
  | .next c | .jump 0 c => .next (c.leave 0 below)
  | .jump (l + 1) c => .jump l c
  | e => e

theorem Result.exit_closed (r : Result) : (r.closed k).exit = r.exit.closed k := by
  rcases r with _ | ⟨_ | _, _⟩ | _ | _ <;> rfl

/-- A step that runs code inside a block. -/
theorem Sim.closed {c : Step} {out out' : γ → Exit → Prop}
    (hstep : ∀ fuel, runStep p (fuel + 1) c s = (run p fuel code s').closed k)
    (h : Sim p code s' out x) (hout : ∀ a e, out a e → out' a (e.closed k)) :
    Sim p [c] s out' x := by
  obtain ⟨e, ⟨n, hn⟩, hmeets⟩ := h
  refine ⟨e.closed k, ⟨n + 1, fun fuel hf => ?_⟩, ?_⟩
  · obtain ⟨fuel, rfl⟩ : ∃ n, fuel = n + 1 := ⟨fuel - 1, by omega⟩
    rw [run_single, hstep, Result.exit_closed, hn fuel (by omega)]
  · cases x with
    | ok a => exact hout a e hmeets
    | error err =>
      cases hmeets
      rfl

theorem runStep_when (hc : c ≠ 0) (fuel : Nat) :
    runStep p (fuel + 1) (when yes) (vm.frame ls (.i32 c :: k)) =
      (run p fuel yes (vm.frame ls [])).closed k := by
  simp only [runStep, Vm.frame, hc, run, if_false, blockArity_void, take_zero, drop_zero]
  rfl

theorem Sim.when_taken (hc : c ≠ 0) {f : α → Compute β}
    (hyes : Sim p yes (vm.frame ls []) (Next fun _ vm' => vm'.frame ls []) (m.run vm))
    (h : ∀ x vm', m.run vm = .ok (x, vm') → Sim p rest (vm'.frame ls k) final ((f x).run vm')) :
    Sim p (when yes :: rest) (vm.frame ls (.i32 c :: k)) final ((m >>= f).run vm) :=
  .append (hyes.closed (runStep_when hc) fun _ _ he => he ▸ rfl) h

theorem Sim.trapIf {f : Unit → Compute β}
    (h : c = 0 → Sim p rest (vm.frame ls k) final ((f ()).run vm)) :
    Sim p (Emit.trapIf :: rest) (vm.frame ls (.i32 c :: k)) final
      ((trapWhen (c != 0) >>= f).run vm) := by
  by_cases hc : c = 0
  · subst hc
    exact sim_when_skip.mpr (h rfl)
  · have htrap : (trapWhen (c != 0)).run vm = .error (.trap .unreachable) := by
      simp [trapWhen, hc]
    refine .when_taken hc ?_ fun x vm' hx => by simp [htrap] at hx
    exact .op_halt (by simp) rfl htrap

/-- The same for a truth value on the stack. -/
theorem Sim.trapIf_ofBool {c : Bool} {f : Unit → Compute β}
    (h : c = false → Sim p rest (vm.frame ls k) final ((f ()).run vm)) :
    Sim p (Emit.trapIf :: rest) (vm.frame ls (Value.ofBool c :: k)) final
      ((trapWhen c >>= f).run vm) := by
  cases c with
  | false => exact .trapIf fun _ => h rfl
  | true => exact .trapIf fun h => absurd h (by decide)

/-! ## Functions -/

/-- What a body leaves when it ends: the results on the stack. -/
def Leaves (out : α → List Value) (n : Nat) (r : α × Vm) (e : Exit) : Prop :=
  (out r.1).length = n ∧ ∃ ls, e = .next (r.2.frame ls (out r.1).reverse)

theorem Sim.mono {out out' : γ → Exit → Prop} (h : Sim p code s out x)
    (himp : ∀ a e, out a e → out' a e) : Sim p code s out' x := by
  obtain ⟨e, hends, hmeets⟩ := h
  refine ⟨e, hends, ?_⟩
  cases x with
  | ok a => exact himp a e hmeets
  | error err => exact hmeets

/-- A body that ends with an empty stack. -/
theorem Sim.leaves_nothing (h : Sim p code s (Next fun _ vm' => vm'.frame ls []) (m.run vm)) :
    Sim p code s (Leaves (fun _ => []) 0) (m.run vm) :=
  h.mono fun _ _ he => ⟨rfl, ls, he⟩

/-- The function `f` does on these arguments what `m` does; `out` gives its results as values. -/
def Computes (p : Program) (f : UInt32) (args : List Value) (m : Compute α)
    (out : α → List Value) : Prop :=
  ∃ type locals body, p.funcs[f.toNat]? = some (.code type locals body) ∧
    type.params.length = args.length ∧
    ∀ vm : Vm, Sim p body (vm.frame (args ++ locals.map Value.zero) [])
      (Leaves out type.results.length) (m.run vm)

theorem popArgs_append (args k : List Value) :
    popArgs args.length (args.reverse ++ k) = some (args, k) := by
  have h1 : (args.reverse ++ k).take args.length = args.reverse :=
    take_left' (by simp)
  have h2 : (args.reverse ++ k).drop args.length = k := drop_left' (by simp)
  simp [popArgs, h1, h2]

theorem runStep_code {type : FuncType} {locals : List ValType}
    (hf : p.funcs[f.toNat]? = some (.code type locals body))
    (hparams : type.params.length = args.length) (fuel : Nat) (vm : Vm) (ls k : List Value) :
    runStep p (fuel + 1) (call f) (vm.frame ls (args.reverse ++ k)) =
      match run p fuel body (vm.frame (args ++ locals.map Value.zero) []) with
      | .next c | .ret c | .jump 0 c =>
        .next ⟨c.store, ls.toArray, c.stack.take type.results.length ++ k⟩
      | .jump (_ + 1) c => .halt .stuck c.store
      | .halt h store => .halt h store := by
  have hpop : popArgs type.params.length (vm.frame ls (args.reverse ++ k)).stack =
      some (args, k) := by
    rw [hparams]
    exact popArgs_append args k
  rw [runStep.eq_1]
  simp only [hf, hpop]
  rfl

theorem Computes.sim {out : α → List Value} (h : Computes p f args m out) (vm : Vm)
    (ls k : List Value) : Sim p [Emit.call f] (vm.frame ls (args.reverse ++ k))
      (Next fun x vm' => vm'.frame ls ((out x).reverse ++ k)) (m.run vm) := by
  obtain ⟨type, locals, body, hf, hparams, hsim⟩ := h
  obtain ⟨e, ⟨n, hn⟩, hmeets⟩ := hsim vm
  have hstep : ∀ fuel, n + 1 ≤ fuel → ∃ fuel', n ≤ fuel' ∧
      run p fuel [Emit.call f] (vm.frame ls (args.reverse ++ k)) =
        runStep p (fuel' + 1) (Emit.call f) (vm.frame ls (args.reverse ++ k)) :=
    fun fuel hfuel => ⟨fuel - 1, by omega, by rw [run_single, Nat.sub_add_cancel (by omega)]⟩
  cases hm : m.run vm with
  | ok r =>
    rw [hm] at hmeets
    obtain ⟨hlen, ls', rfl⟩ := hmeets
    refine ⟨_, ⟨n + 1, fun fuel hfuel => ?_⟩, rfl⟩
    obtain ⟨fuel', hfuel', hrun⟩ := hstep fuel hfuel
    rw [hrun, runStep_code hf hparams, Result.exit_eq_next.mp (hn fuel' hfuel')]
    simp only [Vm.frame]
    rw [take_of_length_le (by simp [hlen])]
    rfl
  | error err =>
    rw [hm] at hmeets
    refine ⟨_, ⟨n + 1, fun fuel hfuel => ?_⟩, rfl⟩
    obtain ⟨fuel', hfuel', hrun⟩ := hstep fuel hfuel
    obtain ⟨store, hbody⟩ := Result.exit_eq_halt.mp ((hn fuel' hfuel').trans hmeets)
    rw [hrun, runStep_code hf hparams, hbody]
    rfl

theorem Sim.call {m : Compute α} {out : α → List Value}
    (hf : Computes p f args m out) {g : α → Compute β}
    (h : ∀ x vm', m.run vm = .ok (x, vm') →
      Sim p rest (vm'.frame ls ((out x).reverse ++ k)) final ((g x).run vm')) :
    Sim p (call f :: rest) (vm.frame ls (args.reverse ++ k)) final ((m >>= g).run vm) :=
  .append (hf.sim vm ls k) h

theorem Sim.call_pure {x : α} {out : α → List Value} (hf : Computes p f args (pure x) out)
    (h : Sim p rest (vm.frame ls ((out x).reverse ++ k)) final r) :
    Sim p (Emit.call f :: rest) (vm.frame ls (args.reverse ++ k)) final r := by
  obtain ⟨n, hn⟩ := (hf.sim vm ls k).run_eq
  rw [sim_cons_next (n := n) fun fuel hfuel => run_single fuel _ _ ▸ (hn fuel hfuel).1 x vm rfl]
  exact h

theorem hostArgs?_map (args : List UInt32) : hostArgs? (args.map Value.i32) = some args := by
  unfold hostArgs?
  induction args with
  | nil => rfl
  | cons v args ih =>
    rw [map_cons, mapM_cons, ih]
    rfl

theorem Sim.callHost {h : HostFunc} (hf : p.funcs[f.toNat]? = some (.host h))
    (args : List UInt32) (hargs : args.length = h.arity) {g : Unit → Compute β}
    (hrest : ∀ vm', (host h args).run vm = .ok ((), vm') →
      Sim p rest (vm'.frame ls k) final ((g ()).run vm')) :
    Sim p (Emit.call f :: rest) (vm.frame ls ((args.map Value.i32).reverse ++ k)) final
      ((host h args >>= g).run vm) := by
  have hpop : popArgs h.arity (vm.frame ls ((args.map Value.i32).reverse ++ k)).stack =
      some (args.map Value.i32, k) := by
    have := popArgs_append (args.map Value.i32) k
    rwa [length_map, hargs] at this
  have hcall : Sim p [Emit.call f] (vm.frame ls ((args.map Value.i32).reverse ++ k))
      (Next fun _ vm' => vm'.frame ls k) ((host h args).run vm) := by
    refine ⟨_, ⟨0, fun fuel _ => by
      rw [run_single, runStep.eq_1]
      simp only [hf, hpop, hostArgs?_map]
      rfl⟩, ?_⟩
    simp only [host, Vm.frame, Vm.store]
    cases vm.host.call vm.memory h args <;> rfl
  exact hcall.append fun _ => hrest

/-- A call from outside gives what the computation gives. -/
theorem Computes.invoke {m : Compute α} {out : α → List Value}
    (h : Computes p f args m out) (vm : Vm) :
    ∃ n, ∀ fuel, n ≤ fuel →
      (∀ x vm', m.run vm = .ok (x, vm') →
        invoke p fuel f args vm.store = ⟨.ok (out x), vm'.store⟩) ∧
      (∀ e, m.run vm = .error e → (invoke p fuel f args vm.store).outcome = .error e) := by
  obtain ⟨n, hn⟩ := (h.sim vm [] []).run_eq
  simp only [append_nil] at hn
  have hs : (⟨vm.store, #[], args.reverse⟩ : State) = vm.frame [] args.reverse := rfl
  refine ⟨n, fun fuel hfuel => ⟨fun x vm' hx => ?_, fun e he => ?_⟩⟩
  · simp only [Machine.invoke, hs, (hn fuel hfuel).1 x vm' hx]
    simp [Vm.frame]
  · obtain ⟨store, hrun⟩ := (hn fuel hfuel).2 e he
    simp only [Machine.invoke, hs, hrun]

/-! ## Loops -/

/-- Runs `body` for `n` numbers from `i` on. -/
def Compute.upTo (body : UInt32 → Compute Unit) : (n : Nat) → (i : UInt32) → Compute Unit
  | 0, _ => pure ()
  | n + 1, i => do
    body i
    upTo body n (i + 1)

theorem runStep_loop (fuel : Nat) (body : Code) (vm : Vm) (ls : List Value) :
    runStep p (fuel + 1) (.loop .void body) (vm.frame ls []) =
      match run p fuel body (vm.frame ls []) with
      | .next c => .next (c.leave 0 [])
      | .jump 0 c => runStep p fuel (.loop .void body) (c.leave 0 [])
      | .jump (l + 1) c => .jump l c
      | r => r := by
  simp only [runStep, blockArity_void, take_zero, drop_zero, run]
  rfl

section

variable {body : Code} {ls' : List Value}

/-- A loop whose body jumps to its start runs again. -/
theorem Ends.loop_again {e : Exit} (hbody : Ends p body (vm.frame ls []) (.jump 0 (vm'.frame ls' [])))
    (h : Ends p [.loop .void body] (vm'.frame ls' []) e) :
    Ends p [.loop .void body] (vm.frame ls []) e := by
  obtain ⟨n, hn⟩ := hbody
  obtain ⟨n', hn'⟩ := h
  refine ⟨max n n' + 1, fun fuel hf => ?_⟩
  obtain ⟨fuel, rfl⟩ : ∃ m, fuel = m + 1 := ⟨fuel - 1, by omega⟩
  rw [run_single, runStep_loop, Result.exit_eq_jump.mp (hn fuel (by omega)),
    ← hn' fuel (by omega), run_single]
  rfl

/-- A loop whose body does not jump to its start ends with it. -/
theorem Ends.loop_closed {e : Exit} (hbody : Ends p body (vm.frame ls []) e)
    (he : ∀ c, e ≠ .jump 0 c) : Ends p [.loop .void body] (vm.frame ls []) (e.closed []) := by
  obtain ⟨n, hn⟩ := hbody
  refine ⟨n + 1, fun fuel hf => ?_⟩
  obtain ⟨fuel, rfl⟩ : ∃ m, fuel = m + 1 := ⟨fuel - 1, by omega⟩
  obtain rfl := hn fuel (by omega)
  rw [run_single, runStep_loop]
  rcases hrun : run p fuel body (vm.frame ls []) with _ | ⟨_ | _, s⟩ | _ | _
  case jump.zero => exact absurd (by rw [hrun]; rfl) (he s)
  all_goals rfl

end

/-- The run jumps in the state that the result of a computation gives. -/
def Jump (label : Nat) (after : α → Vm → State) (r : α × Vm) (e : Exit) : Prop :=
  e = .jump label (after r.1 r.2)

theorem Sim.jump {o : Op} {l : Nat} {out : γ → Exit → Prop} (ho : ∀ f, o ≠ .call f)
    (h : step o s = .jump l s') (hx : Meets out x (.jump l s')) :
    Sim p (.op o :: rest) s out x := by
  refine ⟨.jump l s', ⟨0, fun fuel _ => ?_⟩, hx⟩
  rw [run_cons, runStep.eq_2 _ _ _ _ ho, h]
  rfl

/-- The jump is not taken. -/
@[simp] theorem sim_brIf_zero : Sim p (brIf l :: rest) (vm.frame ls (.i32 0 :: k)) final r ↔
      Sim p rest (vm.frame ls k) final r :=
  sim_op (by simp) rfl

theorem step_brIf (hc : c ≠ 0) :
    step (.brIf l) (vm.frame ls (.i32 c :: k)) = .jump l.toNat (vm.frame ls k) := by
  have : step (.brIf l) (vm.frame ls (.i32 c :: k)) =
    if c = 0 then .next (vm.frame ls k) else .jump l.toNat (vm.frame ls k) := rfl
  rw [this, if_neg hc]

/-- A loop round that does what a computation does and starts over. -/
theorem Sim.loop_again {f : α → Compute β}
    (hbody : Sim p body (vm.frame ls []) (Jump 0 fun _ vm' => vm'.frame ls' []) (m.run vm))
    (h : ∀ x vm', m.run vm = .ok (x, vm') →
      Sim p [.loop .void body] (vm'.frame ls' []) final ((f x).run vm')) :
    Sim p [.loop .void body] (vm.frame ls []) final ((m >>= f).run vm) := by
  obtain ⟨e, hends, hmeets⟩ := hbody
  cases hm : m.run vm with
  | error err =>
    rw [hm] at hmeets
    cases hmeets
    refine ⟨_, hends.loop_closed nofun, ?_⟩
    rw [run_bind_error hm]
    rfl
  | ok r =>
    obtain ⟨x, vm'⟩ := r
    rw [hm] at hmeets
    obtain ⟨e', hends', hmeets'⟩ := h x vm' hm
    refine ⟨e', Ends.loop_again (hmeets ▸ hends) hends', ?_⟩
    rwa [run_bind_ok hm]

theorem Sim.loop_exit
    (hbody : Sim p body (vm.frame ls []) (Jump 1 fun _ vm' => vm'.frame ls' []) (m.run vm)) :
    Sim p [.loop .void body] (vm.frame ls []) (Jump 0 fun _ vm' => vm'.frame ls' [])
      (m.run vm) := by
  obtain ⟨e, hends, hmeets⟩ := hbody
  cases hm : m.run vm with
  | error | ok =>
    rw [hm] at hmeets
    cases hmeets
    exact ⟨_, hends.loop_closed nofun, rfl⟩

theorem Sim.block {f : α → Compute β} (ls' : List Value)
    (hcode : Sim p code (vm.frame ls []) (Jump 0 fun _ vm' => vm'.frame ls' []) (m.run vm))
    (h : ∀ x vm', m.run vm = .ok (x, vm') → Sim p rest (vm'.frame ls' k) final ((f x).run vm')) :
    Sim p (.block .void code :: rest) (vm.frame ls k) final ((m >>= f).run vm) := by
  have hstep : ∀ fuel, runStep p (fuel + 1) (.block .void code) (vm.frame ls k) =
      (run p fuel code (vm.frame ls [])).closed k := by
    intro fuel
    simp only [runStep, Vm.frame, run, blockArity_void, take_zero, drop_zero]
    rfl
  have hblock : Sim p [.block .void code] (vm.frame ls k) (Next fun _ vm' => vm'.frame ls' k)
      (m.run vm) :=
    hcode.closed hstep fun _ _ he => congrArg (Exit.closed k) he
  exact hblock.append h

/-- A branch that is taken and jumps out of what surrounds it. -/
theorem Sim.when_out (hc : c ≠ 0) {l : Nat}
    (hyes : Sim p yes (vm.frame ls []) (Jump (l + 1) after) (m.run vm)) :
    Sim p (when yes :: rest) (vm.frame ls (.i32 c :: k)) (Jump l after) (m.run vm) := by
  obtain ⟨e, ⟨n, hn⟩, hmeets⟩ :
      Sim p [when yes] (vm.frame ls (.i32 c :: k)) (Jump l after) (m.run vm) :=
    hyes.closed (runStep_when hc) fun _ _ he => he ▸ rfl
  refine ⟨e, ⟨n, fun fuel hf => ?_⟩, hmeets⟩
  have hrun := hn fuel hf
  rw [run_single] at hrun
  cases hm : m.run vm with
  | error err =>
    rw [hm] at hmeets
    obtain ⟨store, hstep⟩ := Result.exit_eq_halt.mp (hrun.trans hmeets)
    rw [run_cons, ← hrun, hstep]
  | ok r =>
    rw [hm] at hmeets
    rw [run_cons, ← hrun, Result.exit_eq_jump.mp (hrun.trans hmeets)]

/-- The loop that counts the local `x` up to the local `y`. -/
theorem Sim.upTo_loop {x y n : UInt32} {m : UInt32 → Compute Unit} (hx : x.toNat < ls.length)
    (hy : ls[y.toNat]? = some (.i32 n)) (hxy : x ≠ y)
    (hbody : ∀ i vm, i < n → Sim p body (vm.frame (ls.set x.toNat (.i32 i)) [])
      (Next fun _ vm' => vm'.frame (ls.set x.toNat (.i32 i)) []) ((m i).run vm)) (left : Nat)
    (i : UInt32) (hi : i.toNat + left = n.toNat) (vm : Vm) :
    Sim p [.loop .void (([push x, push y, ge, brIf 1] ++ body ++
        [push x, const 1, add, pop x]) ++ [br 0])] (vm.frame (ls.set x.toNat (.i32 i)) [])
      (Jump 0 fun _ vm' => vm'.frame (ls.set x.toNat (.i32 n)) [])
      ((Compute.upTo m left i).run vm) := by
  have hne : x.toNat ≠ y.toNat := fun h => hxy (UInt32.toNat_inj.mp h)
  have hylt : y.toNat < ls.length := by
    by_contra hlt
    simp [getElem?_eq_none (by omega : ls.length ≤ y.toNat)] at hy
  have hgetx : ∀ j, ((ls.set x.toNat (.i32 j))[x.toNat]?).getD (.i32 0) = .i32 j := by
    intro j
    simp [hx]
  have hgety : ∀ j, ((ls.set x.toNat (.i32 j))[y.toNat]?).getD (.i32 0) = .i32 n := by
    intro j
    simp [getElem?_set_ne hne, hy]
  induction left generalizing i vm with
  | zero =>
    have hin : i = n := UInt32.toNat_inj.mp (by omega)
    subst hin
    refine .loop_exit ?_
    simp only [cons_append, nil_append]
    rw [sim_push (by simpa using hx), hgetx, sim_push (by simpa using hylt), hgety, sim_rel]
    exact .jump (by simp) (step_brIf (by simp [I32Rel.eval])) rfl
  | succ left ih =>
    have hlt : i < n := by
      rw [UInt32.lt_iff_toNat_lt]
      omega
    have hsucc : (i + 1).toNat = i.toNat + 1 := by
      rw [UInt32.toNat_add]
      have := n.toNat_lt
      simp
      omega
    have hround : Sim p
        (([push x, push y, ge, brIf 1] ++ body ++ [push x, const 1, add, pop x]) ++ [br 0])
        (vm.frame (ls.set x.toNat (.i32 i)) [])
        (Jump 0 fun _ vm' => vm'.frame (ls.set x.toNat (.i32 (i + 1))) []) ((m i).run vm) := by
      rw [← bind_pure (m i)]
      simp only [cons_append, nil_append, append_assoc]
      rw [sim_push (by simpa using hx), hgetx, sim_push (by simpa using hylt), hgety, sim_rel]
      have hge : Value.ofBool (I32Rel.eval .geU i n) = .i32 0 := by
        simp [Value.ofBool, I32Rel.eval, UInt32.not_le.mpr hlt]
      rw [hge, sim_brIf_zero]
      refine .append (hbody i vm hlt) fun _ vm' _ => ?_
      rw [sim_push (by simpa using hx), hgetx, sim_const, sim_bin rfl, sim_pop, set_set]
      exact .jump (by simp) rfl rfl
    exact .loop_again hround fun _ vm' _ => ih (i + 1) (by omega) vm'

/-- Counting up from zero. -/
theorem Sim.upTo {x y n : UInt32} {m : UInt32 → Compute Unit} {f : Unit → Compute β}
    (hx : ls[x.toNat]? = some (.i32 0)) (hy : ls[y.toNat]? = some (.i32 n)) (hxy : x ≠ y)
    (hbody : ∀ i vm, i < n → Sim p body (vm.frame (ls.set x.toNat (.i32 i)) [])
      (Next fun _ vm' => vm'.frame (ls.set x.toNat (.i32 i)) []) ((m i).run vm))
    (h : ∀ vm', (Compute.upTo m n.toNat 0).run vm = .ok ((), vm') →
      Sim p rest (vm'.frame (ls.set x.toNat (.i32 n)) k) final ((f ()).run vm')) :
    Sim p (Emit.upTo x y body :: rest) (vm.frame ls k) final
      ((Compute.upTo m n.toNat 0 >>= f).run vm) := by
  obtain ⟨hlt, hget⟩ := List.getElem?_eq_some_iff.mp hx
  have hset : ls.set x.toNat (.i32 0) = ls := by rw [← hget, set_getElem_self]
  have hloop := Sim.upTo_loop hlt hy hxy hbody n.toNat 0 (by simp) vm
  rw [hset] at hloop
  exact .block _ hloop fun _ vm' => h vm'

end

end MoveCodec.Machine
