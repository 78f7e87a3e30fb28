import MoveCodec.Proofs.Machine.Control
import MoveCodec.Proofs.Machine.Safety
import MoveCodec.Proofs.Wasm.Renumber

/-!
# Generated code stops

A run can only go on for ever in a loop or by calls that never end. `Bounded` asks that every
function that is called stops and that every loop makes progress each time it starts again; code
that satisfies it does not run out of fuel if it is given enough, whatever the state it starts in.
-/
namespace MoveCodec.Machine

open Wasm Wasm.Emit List

variable {a n f i x : UInt32} {r : Result} {body rest : Code} {st st' : State} {o : Op} {fuel : Nat}
  {locals : List ValType} {below : List Value}

variable {p : Program}

/-- Some amount of fuel is enough for the step in every state. -/
def StepStops (p : Program) (c : Step) : Prop :=
  ∃ n, ∀ fuel, n ≤ fuel → ∀ st, ¬ (runStep p fuel c st).Starved

/-- Some amount of fuel is enough for the code in every state. -/
def CodeStops (p : Program) (code : Code) : Prop :=
  ∃ n, ∀ fuel, n ≤ fuel → ∀ st, ¬ (run p fuel code st).Starved

/-- A call of `g` stands in the body of `f`. -/
def Program.Calls (p : Program) (f g : UInt32) : Prop :=
  ∃ t locals body, p.funcs[f.toNat]? = some (.code t locals body) ∧
    .op (.call g) ∈ Code.flatten body

/-- Calls of the function stop, and no chain of calls from it on is endless. -/
structure FuncStops (p : Program) (f : UInt32) : Prop where
  stops : StepStops p (.op (.call f))
  grounded : Acc (fun g f => p.Calls f g) f

/-- Each time a loop with this body starts again, less is left of a measure of its locals. There are
no more rounds than numbers of 32 bits, whatever the locals hold. -/
def Progresses (p : Program) (body : Code) : Prop :=
  ∃ μ : Array Value → Nat, (∀ ls, μ ls ≤ UInt32.size) ∧
    ∀ fuel st st', run p fuel body st = .jump 0 st' → μ st'.locals < μ st.locals

@[simp] def OpBounded (p : Program) : Op → Prop
  | .call f => FuncStops p f
  | _ => True

mutual

/-- What the step calls stops, and the loops in it make progress. -/
@[simp] def StepBounded (p : Program) : Step → Prop
  | .op o => OpBounded p o
  | .block _ body => Bounded p body
  | .loop _ body => Progresses p body ∧ Bounded p body
  | .branch _ yes no => Bounded p yes ∧ Bounded p no

/-- All calls in the code stop and all loops make progress. -/
@[simp] def Bounded (p : Program) : List Step → Prop
  | [] => True
  | c :: rest => StepBounded p c ∧ Bounded p rest

end

@[simp] theorem bounded_append {a b : Code} : Bounded p (a ++ b) ↔ Bounded p a ∧ Bounded p b := by
  induction a with
  | nil => simp
  | cons c a ih => simp [ih, and_assoc]

/-! ## Steps -/

def IsJump : Op → Prop
  | .br _ | .brIf _ | .brTable _ _ => True
  | _ => False

/-- How an instruction other than a call can end: it sets at most the local it names, only jumps
jump, and fuel is not at stake. -/
def Result.ComesFrom (o : Op) (st : State) : Result → Prop
  | .next st' => st'.locals = st.locals ∨ ∃ x v, (o = .localSet x ∨ o = .localTee x) ∧
      st'.locals = st.locals.setIfInBounds x.toNat v
  | .jump _ _ => IsJump o
  | .ret _ => True
  | .halt h _ => h ≠ .outOfFuel

theorem write_comesFrom (o : Op) (st : State) (a : Nat) (bs : Bytes) (stack : List Value) :
    (st.write a bs stack).ComesFrom o st := by
  unfold State.write
  dsimp only
  split
  · exact .inl rfl
  · exact nofun

theorem step_comesFrom (o : Op) (st : State) : (step o st).ComesFrom o st := by
  obtain ⟨store, locals, stack⟩ := st
  cases o with
  | call _ | unreachable => exact nofun
  | br _ | ret => trivial
  | nop | memorySize | i32Const _ | i64Const _ => exact .inl rfl
  | localSet x | localTee x =>
    rcases stack with _ | ⟨v, stack⟩
    · exact nofun
    · exact .inr ⟨x, v, by simp, rfl⟩
  | localGet _ | globalGet _ =>
    dsimp only [step]
    split <;> first | exact .inl rfl | exact nofun
  | drop | globalSet x => rcases stack with _ | ⟨v, stack⟩ <;> first | exact .inl rfl | exact nofun
  | i32Eqz | i64Eqz | wrap | extend =>
    rcases stack with _ | ⟨_ | _, stack⟩ <;> first | exact .inl rfl | exact nofun
  | i32Rel _ | i64Rel _ | i64Bin _ =>
    rcases stack with _ | ⟨_ | _, _ | ⟨_ | _, stack⟩⟩ <;> first | exact .inl rfl | exact nofun
  | select =>
    rcases stack with _ | ⟨_ | _, _ | ⟨_, _ | ⟨_, stack⟩⟩⟩ <;> first | exact .inl rfl | exact nofun
  | brTable ls d => rcases stack with _ | ⟨_ | _, stack⟩ <;> first | trivial | exact nofun
  | brIf _ | load _ _ _ | memoryGrow =>
    rcases stack with _ | ⟨_ | _, stack⟩
    case cons.i32 =>
      dsimp only [step]
      split <;> first | exact .inl rfl | trivial | exact nofun
    all_goals exact nofun
  | i32Bin o =>
    rcases stack with _ | ⟨_ | _, _ | ⟨_ | _, stack⟩⟩
    case cons.i32.cons.i32 =>
      dsimp only [step]
      split <;> first | exact .inl rfl | exact nofun
    all_goals exact nofun
  | store op align offset =>
    rcases stack with _ | ⟨v, _ | ⟨_ | _, stack⟩⟩
    case cons.cons.i32 =>
      dsimp only [step]
      split <;> first | exact write_comesFrom .. | exact nofun
    all_goals exact nofun
  | memoryCopy | memoryFill =>
    rcases stack with _ | ⟨_ | _, _ | ⟨_ | _, _ | ⟨_ | _, stack⟩⟩⟩
    case cons.i32.cons.i32.cons.i32 =>
      dsimp only [step]
      split <;> first | exact write_comesFrom .. | exact nofun
    all_goals exact nofun

theorem step_not_starved (o : Op) (st : State) : ¬ (step o st).Starved := by
  have h := step_comesFrom o st
  cases hr : step o st with
  | halt e store =>
    rw [hr] at h
    cases e with
    | outOfFuel => exact absurd rfl h
    | _ => exact id
  | _ => exact id

theorem starved_leave {n : Nat} : (r.leave n below).Starved ↔ r.Starved := by
  cases r with
  | jump l st => cases l <;> rfl
  | _ => rfl

/-! ## Bounded code -/

theorem stepStops_call {t : FuncType} (hf : p.funcs[f.toNat]? = some (.code t locals body))
    (hbody : CodeStops p body) : StepStops p (.op (.call f)) := by
  obtain ⟨n, hn⟩ := hbody
  refine ⟨n + 1, fun fuel hfuel st => ?_⟩
  obtain ⟨fuel, rfl⟩ : ∃ k, fuel = k + 1 := ⟨fuel - 1, by omega⟩
  obtain ⟨store, own, stack⟩ := st
  rw [runStep.eq_1, hf]
  dsimp only
  cases popArgs t.params.length stack with
  | none => exact id
  | some pair =>
    obtain ⟨args, below⟩ := pair
    have hrun := hn fuel (by omega) ⟨store, (args ++ locals.map Value.zero).toArray, []⟩
    rw [run] at hrun
    dsimp only
    cases hr : runWith (runStep p fuel) body
        ⟨store, (args ++ locals.map Value.zero).toArray, []⟩ with
    | next c => exact id
    | ret c => exact id
    | jump l c => cases l <;> exact id
    | halt e store' =>
      rw [hr] at hrun
      exact hrun

theorem funcStops_host {h : HostFunc} (hf : p.funcs[f.toNat]? = some (.host h)) :
    FuncStops p f := by
  refine ⟨⟨0, fun fuel _ st => ?_⟩, .intro f fun g ⟨_, _, _, hcode, _⟩ => ?_⟩
  · rw [runStep.eq_1, hf]
    dsimp only
    split
    · exact id
    · split
      · exact id
      · split <;> exact id
  · rw [hf] at hcode
    cases hcode

theorem codeStops_cons {c : Step} (hc : StepStops p c) (hrest : CodeStops p rest) :
    CodeStops p (c :: rest) := by
  obtain ⟨n, hn⟩ := hc
  obtain ⟨m, hm⟩ := hrest
  refine ⟨max n m, fun fuel hfuel st => ?_⟩
  have hstep := hn fuel (by omega) st
  rw [run_cons]
  cases hr : runStep p fuel c st with
  | next st' => exact hm fuel (by omega) st'
  | halt e store =>
    rw [hr] at hstep
    exact hstep
  | _ => exact id

theorem stepStops_loop {t : BlockType} (hbody : CodeStops p body)
    (hprogress : Progresses p body) : StepStops p (.loop t body) := by
  obtain ⟨n, hn⟩ := hbody
  obtain ⟨μ, hbound, hless⟩ := hprogress
  -- By induction on a bound of the measure: the loop starts again with one unit of fuel less.
  have hloop : ∀ k fuel st, μ st.locals < k → n + k ≤ fuel →
      ¬ (runStep p fuel (.loop t body) st).Starved := by
    intro k
    induction k with
    | zero => exact fun _ _ hk => absurd hk (Nat.not_lt_zero _)
    | succ k ih =>
      intro fuel st hk hfuel
      obtain ⟨fuel, rfl⟩ : ∃ m, fuel = m + 1 := ⟨fuel - 1, by omega⟩
      set inside : State := { st with stack := st.stack.take (blockArity p t).1 } with hinside
      have hrun := hn fuel (by omega) inside
      simp only [runStep, ← hinside]
      cases hr : runWith (runStep p fuel) body inside with
      | next c => exact id
      | ret c => exact id
      | halt e store =>
        rw [run, hr] at hrun
        exact hrun
      | jump l c =>
        cases l with
        | succ l => exact id
        | zero =>
          have hc : μ c.locals < μ st.locals := hless fuel inside c hr
          exact ih fuel (c.leave _ _) (hc.trans_le (Nat.le_of_lt_succ hk)) (by omega)
  exact ⟨n + (UInt32.size + 1), fun fuel hfuel st =>
    hloop (UInt32.size + 1) fuel st (Nat.lt_succ_of_le (hbound _)) hfuel⟩

mutual

theorem stepStops_of_bounded : ∀ c : Step, StepBounded p c → StepStops p c
  | .op o, h => by
    by_cases hcall : ∃ f, o = .call f
    · obtain ⟨f, rfl⟩ := hcall
      exact h.stops
    · refine ⟨0, fun fuel _ st => ?_⟩
      rw [runStep.eq_2 _ _ _ _ fun f hf => hcall ⟨f, hf⟩]
      exact step_not_starved o st
  | .block t body, h => by
    obtain ⟨n, hn⟩ := codeStops_of_bounded body h
    refine ⟨n + 1, fun fuel hfuel st => ?_⟩
    obtain ⟨fuel, rfl⟩ : ∃ k, fuel = k + 1 := ⟨fuel - 1, by omega⟩
    rw [runStep_block, starved_leave]
    exact hn fuel (by omega) _
  | .loop t body, h => stepStops_loop (codeStops_of_bounded body h.2) h.1
  | .branch t yes no, h => by
    obtain ⟨n, hn⟩ := codeStops_of_bounded yes h.1
    obtain ⟨m, hm⟩ := codeStops_of_bounded no h.2
    refine ⟨max n m + 1, fun fuel hfuel st => ?_⟩
    obtain ⟨fuel, rfl⟩ : ∃ k, fuel = k + 1 := ⟨fuel - 1, by omega⟩
    obtain ⟨store, locals, stack⟩ := st
    rcases stack with _ | ⟨b | _, stack⟩
    · exact id
    · rw [runStep_branch, starved_leave]
      split
      · exact hm fuel (by omega) _
      · exact hn fuel (by omega) _
    · exact id

theorem codeStops_of_bounded : ∀ code : List Step, Bounded p code → CodeStops p code
  | [], _ => ⟨0, fun _ _ _ => id⟩
  | c :: rest, h => codeStops_cons (stepStops_of_bounded c h.1) (codeStops_of_bounded rest h.2)

end

mutual

theorem funcStops_of_mem_step {g : UInt32} :
    ∀ c : Step, StepBounded p c → .op (.call g) ∈ Code.flattenStep c → FuncStops p g
  | .op o, h, hg => by
    simp only [Code.flattenStep, mem_singleton, Instr.op.injEq] at hg
    subst hg
    exact h
  | .block t body, h, hg => by
    refine funcStops_of_mem body h ?_
    simpa [Code.flattenStep] using hg
  | .loop t body, h, hg => by
    refine funcStops_of_mem body h.2 ?_
    simpa [Code.flattenStep] using hg
  | .branch t yes [], h, hg => by
    refine funcStops_of_mem yes h.1 ?_
    simpa [Code.flattenStep] using hg
  | .branch t yes (c :: no), h, hg => by
    have hg' : .op (.call g) ∈ Code.flatten yes ∨ .op (.call g) ∈ Code.flatten (c :: no) := by
      simpa [Code.flattenStep] using hg
    exact hg'.elim (funcStops_of_mem yes h.1) (funcStops_of_mem (c :: no) h.2)

theorem funcStops_of_mem {g : UInt32} :
    ∀ code : List Step, Bounded p code → .op (.call g) ∈ Code.flatten code → FuncStops p g
  | [], _, hg => by cases hg
  | c :: rest, h, hg => by
    rw [Code.flatten, mem_append] at hg
    exact hg.elim (funcStops_of_mem_step c h.1) (funcStops_of_mem rest h.2)

end

theorem funcStops_code {t : FuncType} (hf : p.funcs[f.toNat]? = some (.code t locals body))
    (hbody : Bounded p body) : FuncStops p f := by
  refine ⟨stepStops_call hf (codeStops_of_bounded body hbody), .intro f ?_⟩
  rintro g ⟨t', locals', body', hcode, hg⟩
  rw [hf] at hcode
  cases hcode
  exact (funcStops_of_mem body hbody hg).grounded

/-- With enough fuel, a call from outside ends in one way, and not for want of fuel. -/
theorem FuncStops.invoke (h : FuncStops p f) :
    ∃ n, ∀ args store, (Machine.invoke p n f args store).outcome ≠ .error .outOfFuel ∧
      ∀ fuel, n ≤ fuel → Machine.invoke p fuel f args store = Machine.invoke p n f args store := by
  obtain ⟨n, hn⟩ := h.stops
  refine ⟨n, fun args store => ⟨fun hout => ?_, fun fuel hfuel => ?_⟩⟩
  · have hrun := hn n le_rfl ⟨store, #[], args.reverse⟩
    rw [Machine.invoke, run_single] at hout
    cases hr : runStep p n (.op (.call f)) ⟨store, #[], args.reverse⟩ with
    | halt e store' =>
      rw [hr] at hout hrun
      cases hout
      exact hrun trivial
    | _ =>
      rw [hr] at hout
      cases hout
  · induction fuel, hfuel using Nat.le_induction with
    | base => rfl
    | succ fuel hfuel ih =>
      rw [← ih, Machine.invoke, Machine.invoke, run_single, run_single,
        runStep_succ fuel _ _ (hn fuel hfuel _)]

/-! ## Loops -/

mutual

def Code.loopsStep : Step → List Code
  | .op _ => []
  | .block _ body => Code.loops body
  | .loop _ body => body :: Code.loops body
  | .branch _ yes no => Code.loops yes ++ Code.loops no

def Code.loops : List Step → List Code
  | [] => []
  | c :: rest => Code.loopsStep c ++ Code.loops rest

end

mutual

theorem StepBounded.progresses {loop : Code} :
    ∀ c : Step, StepBounded p c → loop ∈ Code.loopsStep c → Progresses p loop
  | .op _, _, hloop => by cases hloop
  | .block _ body, h, hloop => Bounded.progresses body h hloop
  | .loop _ body, h, hloop => by
    rcases mem_cons.1 hloop with rfl | hloop
    · exact h.1
    · exact Bounded.progresses body h.2 hloop
  | .branch _ yes no, h, hloop =>
    (mem_append.1 hloop).elim (Bounded.progresses yes h.1) (Bounded.progresses no h.2)

theorem Bounded.progresses {loop : Code} :
    ∀ code : List Step, Bounded p code → loop ∈ Code.loops code → Progresses p loop
  | [], _, hloop => by cases hloop
  | c :: rest, h, hloop =>
    (mem_append.1 hloop).elim (StepBounded.progresses c h.1) (Bounded.progresses rest h.2)

end

/-! ## Other numbers -/

section

variable {q : Program} {σ : UInt32 → UInt32}

def renumbered (σ : UInt32 → UInt32) : Instr → Instr
  | .op o => .op (o.renumber σ)
  | i => i

mutual

theorem flattenStep_renumber : ∀ c : Step,
    Code.flattenStep (Code.renumberStep σ c) = (Code.flattenStep c).map (renumbered σ)
  | .op o => rfl
  | .block t body | .loop t body | .branch t body [] => by
    simp [Code.renumberStep, Code.renumber, Code.flattenStep, flatten_renumber body, renumbered]
  | .branch t yes (c :: no) => by
    simp [Code.renumberStep, Code.renumber, Code.flattenStep, Code.flatten, flatten_renumber yes,
      flattenStep_renumber c, flatten_renumber no, renumbered]

theorem flatten_renumber : ∀ code : List Step,
    Code.flatten (Code.renumber σ code) = (Code.flatten code).map (renumbered σ)
  | [] => rfl
  | c :: rest => by
    rw [Code.renumber, Code.flatten, Code.flatten, map_append, flattenStep_renumber c,
      flatten_renumber rest]

end

theorem mem_flatten_renumber {h : UInt32} {code : Code}
    (hmem : .op (.call h) ∈ Code.flatten (Code.renumber σ code)) :
    ∃ g, .op (.call g) ∈ Code.flatten code ∧ h = σ g := by
  rw [flatten_renumber] at hmem
  obtain ⟨i, hi, heq⟩ := mem_map.1 hmem
  rcases i with ⟨⟨⟩⟩ | _ <;> cases heq
  exact ⟨_, hi, rfl⟩

/-- Functions that stop do so under other numbers too. -/
theorem FuncStops.renumber (h : FuncStops p f) (hq : Embeds σ p q) :
    FuncStops q (σ f) := by
  obtain ⟨⟨n, hn⟩, hgrounded⟩ := h
  refine ⟨⟨n, fun fuel hfuel st => ?_⟩, ?_⟩
  · have hsame := hq.runStep_eq fuel (.op (.call f)) st
    rw [Code.renumberStep, Op.renumber] at hsame
    rw [hsame]
    exact hn fuel hfuel st
  · clear hn n
    induction hgrounded with
    | intro f _ ih =>
      refine .intro _ ?_
      rintro h ⟨t, locals, body, hbody, hh⟩
      rw [hq.funcs_eq] at hbody
      obtain ⟨callee, hcallee, hbody⟩ := Option.map_eq_some_iff.1 hbody
      cases callee with
      | host => cases hbody
      | code t' locals' code =>
        cases hbody
        obtain ⟨g, hg, rfl⟩ := mem_flatten_renumber hh
        exact ih g ⟨t, locals, code, hcallee, hg⟩

theorem Progresses.renumber (h : Progresses p body) (hq : Embeds σ p q) :
    Progresses q (Code.renumber σ body) := by
  obtain ⟨μ, hbound, hless⟩ := h
  refine ⟨μ, hbound, fun fuel st st' hround => hless fuel st st' ?_⟩
  rw [← hround]
  exact (runWith_renumber (hq.runStep_eq fuel) body st).symm

mutual

theorem StepBounded.renumber (hq : Embeds σ p q) :
    ∀ c : Step, StepBounded p c → StepBounded q (Code.renumberStep σ c)
  | .op o, h => by
    cases o with
    | call f => exact FuncStops.renumber h hq
    | _ => trivial
  | .block t body, h => Bounded.renumber hq body h
  | .loop t body, h => ⟨h.1.renumber hq, Bounded.renumber hq body h.2⟩
  | .branch t yes no, h => ⟨Bounded.renumber hq yes h.1, Bounded.renumber hq no h.2⟩

/-- Bounded code stays so when functions get other numbers. -/
theorem Bounded.renumber (hq : Embeds σ p q) :
    ∀ code : List Step, Bounded p code → Bounded q (Code.renumber σ code)
  | [], _ => trivial
  | c :: rest, h => ⟨StepBounded.renumber hq c h.1, Bounded.renumber hq rest h.2⟩

end

end

/-! ## Counting -/

/-- The instruction neither sets a local nor jumps. -/
@[simp] def OpKeeps (x : UInt32) : Op → Prop
  | .br _ | .brIf _ | .brTable _ _ => False
  | .localSet y | .localTee y => y.toNat ≠ x.toNat
  | _ => True

mutual

/-- The step neither sets a local nor jumps, and has no loop inside. -/
@[simp] def StepKeeps (x : UInt32) : Step → Prop
  | .op o => OpKeeps x o
  | .block _ body => Keeps x body
  | .loop _ _ => False
  | .branch _ yes no => Keeps x yes ∧ Keeps x no

@[simp] def Keeps (x : UInt32) : List Step → Prop
  | [] => True
  | c :: rest => StepKeeps x c ∧ Keeps x rest

end

def Result.Kept (x : UInt32) (st : State) : Result → Prop
  | .next st' => st'.locals[x.toNat]? = st.locals[x.toNat]?
  | .jump _ _ => False
  | _ => True

section

variable {x : UInt32}

theorem kept_leave {n : Nat} (hlocals : st'.locals = st.locals) (h : r.Kept x st') :
    (r.leave n below).Kept x st := by
  cases r with
  | next c => exact h.trans (by rw [hlocals])
  | jump => exact h.elim
  | _ => trivial

theorem runStep_call_kept : (runStep p fuel (.op (.call f)) st).Kept x st := by
  rw [runStep.eq_1]
  cases p.funcs[f.toNat]? with
  | none => trivial
  | some callee =>
    cases callee with
    | host h =>
      dsimp only
      split
      · trivial
      · split
        · trivial
        · split
          · rfl
          · trivial
    | code t locals body =>
      cases fuel with
      | zero => trivial
      | succ fuel =>
        obtain ⟨store, own, stack⟩ := st
        dsimp only
        split
        · trivial
        · split
          · rfl
          · rfl
          · rfl
          · trivial
          · trivial

theorem step_kept (ho : OpKeeps x o) (st : State) : (step o st).Kept x st := by
  have h := step_comesFrom o st
  cases hr : step o st with
  | next st' =>
    rw [hr] at h
    rcases h with h | ⟨y, v, ho', h⟩
    · rw [Result.Kept, h]
    · have hne : y.toNat ≠ x.toNat := by
        rcases ho' with rfl | rfl <;> exact ho
      rw [Result.Kept, h, Array.getElem?_setIfInBounds_ne hne]
  | jump l st' =>
    rw [hr] at h
    cases o with
    | br | brIf | brTable => exact ho
    | _ => exact h
  | _ => trivial

mutual

theorem runStep_kept (fuel : Nat) :
    ∀ c : Step, StepKeeps x c → ∀ st, (runStep p fuel c st).Kept x st
  | .op o, h, st => by
    by_cases hcall : ∃ f, o = .call f
    · obtain ⟨f, rfl⟩ := hcall
      exact runStep_call_kept
    · rw [runStep.eq_2 _ _ _ _ fun f hf => hcall ⟨f, hf⟩]
      exact step_kept h st
  | .block t body, h, st => by
    cases fuel with
    | zero => trivial
    | succ fuel =>
      rw [runStep_block]
      exact kept_leave rfl (run_kept fuel body h _)
  | .loop t body, h, st => h.elim
  | .branch t yes no, h, st => by
    obtain ⟨store, locals, stack⟩ := st
    cases fuel with
    | zero => trivial
    | succ fuel =>
      rcases stack with _ | ⟨b | _, stack⟩
      · trivial
      · rw [runStep_branch]
        split
        · exact kept_leave rfl (run_kept fuel no h.2 _)
        · exact kept_leave rfl (run_kept fuel yes h.1 _)
      · trivial

theorem run_kept (fuel : Nat) :
    ∀ code : List Step, Keeps x code → ∀ st, (run p fuel code st).Kept x st
  | [], _, _ => rfl
  | c :: rest, h, st => by
    have hc := runStep_kept fuel c h.1 st
    rw [run_cons]
    cases hr : runStep p fuel c st with
    | next st' =>
      rw [hr] at hc
      have hrest := run_kept fuel rest h.2 st'
      dsimp only
      cases hr' : run p fuel rest st' with
      | next st'' =>
        rw [hr'] at hrest
        exact hrest.trans hc
      | jump l st'' =>
        rw [hr'] at hrest
        exact hrest
      | _ => trivial
    | jump l st' =>
      rw [hr] at hc
      exact hc
    | _ => trivial

end

end

theorem run_append_jump {a b : Code} {l : Nat} (h : run p fuel (a ++ b) st = .jump l st') :
    run p fuel a st = .jump l st' ∨
      ∃ s, run p fuel a st = .next s ∧ run p fuel b s = .jump l st' := by
  rw [run_append] at h
  cases hr : run p fuel a st with
  | next s =>
    rw [hr] at h
    exact .inr ⟨s, rfl, h⟩
  | _ =>
    rw [hr] at h
    exact .inl h

/-- A loop whose round is a test, a body that leaves the counter alone, and a count. -/
theorem progresses_rounds {test last : Code} (μ : Array Value → Nat)
    (hbound : ∀ ls, μ ls ≤ UInt32.size) (htest : ∀ fuel st st', run p fuel test st ≠ .jump 0 st')
    (hbody : Keeps x body)
    (hless : ∀ fuel st s s' st', run p fuel test st = .next s → run p fuel body s = .next s' →
      run p fuel last s' = .jump 0 st' → μ st'.locals < μ st.locals) :
    Progresses p (test ++ (body ++ last)) := by
  refine ⟨μ, hbound, fun fuel st st' hround => ?_⟩
  -- Only the count jumps back, so test and body went through before it.
  obtain hjump | ⟨s, hs, hround⟩ := run_append_jump hround
  · exact absurd hjump (htest fuel st st')
  obtain hjump | ⟨s', hs', hlast⟩ := run_append_jump hround
  · have hkept := run_kept (p := p) fuel body hbody s
    rw [hjump] at hkept
    exact hkept.elim
  · exact hless fuel st s s' st' hs hs' hlast

/-- What a body keeps that goes through. -/
theorem locals_of_kept (hbody : Keeps x body) (h : run p fuel body st = .next st') :
    st'.locals[x.toNat]? = st.locals[x.toNat]? := by
  have hkept := run_kept (p := p) fuel body hbody st
  rwa [h] at hkept

/-! ### Counting up -/

/-- How far one local is below another. -/
def gap (i n : UInt32) (ls : Array Value) : Nat :=
  match ls[i.toNat]?, ls[n.toNat]? with
  | some (.i32 a), some (.i32 b) => b.toNat - a.toNat
  | _, _ => 0

theorem gap_le (i n : UInt32) (ls : Array Value) : gap i n ls ≤ UInt32.size := by
  unfold gap
  split
  · rename_i b _ _
    exact (Nat.sub_le _ _).trans b.toNat_lt.le
  · exact Nat.zero_le _

/-- An instruction that goes on. -/
theorem run_next (ho : ∀ f, o ≠ .call f) (h : step o st = .next st') :
    run p fuel (.op o :: rest) st = run p fuel rest st' := by
  rw [run_cons, runStep.eq_2 _ _ _ _ ho, h]

/-- An instruction that ends the run of its code. -/
theorem run_stop (ho : ∀ f, o ≠ .call f) (h : step o st = r) (hr : ∀ st', r ≠ .next st') :
    run p fuel (.op o :: rest) st = r := by
  rw [run_cons, runStep.eq_2 _ _ _ _ ho, h]
  cases r with
  | next st' => exact absurd rfl (hr st')
  | _ => rfl

section

variable {fuel : Nat} {x : UInt32} {rest : Code} {store : Store} {locals : Array Value}
  {stack : List Value}

theorem run_push {v : Value} (h : locals[x.toNat]? = some v) :
    run p fuel (push x :: rest) ⟨store, locals, stack⟩ =
      run p fuel rest ⟨store, locals, v :: stack⟩ :=
  run_next (by simp) (step_localGet h)

theorem run_push_none (h : locals[x.toNat]? = none) :
    run p fuel (push x :: rest) ⟨store, locals, stack⟩ = .halt .stuck store := by
  refine run_stop (by simp) ?_ (by simp)
  dsimp only [step]
  rw [h]
  rfl

theorem run_brIf {c : Bool} {l : UInt32} :
    run p fuel (brIf l :: rest) ⟨store, locals, Value.ofBool c :: stack⟩ =
      if c then .jump l.toNat ⟨store, locals, stack⟩
      else run p fuel rest ⟨store, locals, stack⟩ := by
  cases c with
  | true => exact run_stop (by simp) rfl (by simp)
  | false => exact run_next (by simp) rfl

end

/-- The test goes on just when one local is below the other. -/
theorem run_below : run p fuel [push i, push n, ge, brIf 1] st =
      match st.locals[i.toNat]?, st.locals[n.toNat]? with
      | some (.i32 a), some (.i32 b) => if a < b then .next st else .jump 1 st
      | _, _ => .halt .stuck st.store := by
  obtain ⟨store, locals, stack⟩ := st
  dsimp only
  rcases hi : locals[i.toNat]? with _ | v
  · rw [run_push_none hi]
  rcases hn : locals[n.toNat]? with _ | w
  · rw [run_push hi, run_push_none hn]
    cases v <;> rfl
  rw [run_push hi, run_push hn]
  rcases v with a | a
  · rcases w with b | b
    · refine ((run_next (by simp) rfl).trans run_brIf).trans ?_
      by_cases hab : a < b
      · have hge : I32Rel.eval .geU a b = false := decide_eq_false (UInt32.not_le.2 hab)
        rw [hge]
        exact (if_pos hab).symm
      · have hge : I32Rel.eval .geU a b = true := decide_eq_true (UInt32.not_lt.1 hab)
        rw [hge]
        exact (if_neg hab).symm
    · exact run_stop (by simp) rfl (by simp)
  · cases w <;> exact run_stop (by simp) rfl (by simp)

theorem run_increment (hi : st.locals[i.toNat]? = some (.i32 a)) :
    run p fuel [push i, const 1, add, pop i, br 0] st =
      .jump 0 { st with locals := st.locals.setIfInBounds i.toNat (.i32 (a + 1)) } := by
  obtain ⟨store, locals, stack⟩ := st
  rw [run_push hi, run_next (by simp) rfl, run_next (by simp) rfl, run_next (by simp) rfl]
  exact run_stop (by simp) rfl (by simp)

theorem gap_increment {b : UInt32} {ls : Array Value} (hin : i.toNat ≠ n.toNat)
    (hi : ls[i.toNat]? = some (.i32 a)) (hn : ls[n.toNat]? = some (.i32 b)) (hab : a < b) :
    gap i n (ls.setIfInBounds i.toNat (.i32 (a + 1))) < b.toNat - a.toNat := by
  have hlt : i.toNat < ls.size := (Array.getElem?_eq_some_iff.1 hi).1
  have hab' := UInt32.lt_iff_toNat_lt.1 hab
  have hsucc : (a + 1).toNat = a.toNat + 1 := by
    have hb := b.toNat_lt
    rw [UInt32.toNat_add, UInt32.toNat_one, Nat.mod_eq_of_lt (by omega)]
  simp only [gap, hn, Array.getElem?_setIfInBounds_self_of_lt hlt,
    Array.getElem?_setIfInBounds_ne hin, hsucc]
  omega

/-- A loop that counts one local up to another. -/
@[simp] theorem stepBounded_upTo
    (h : i.toNat ≠ n.toNat ∧ Keeps i body ∧ Keeps n body ∧ Bounded p body) :
    StepBounded p (upTo i n body) := by
  obtain ⟨hin, hi, hn, hbody⟩ := h
  have hloop : Progresses p ([push i, push n, ge, brIf 1] ++
      (body ++ [push i, const 1, add, pop i, br 0])) := by
    refine progresses_rounds (gap i n) (gap_le i n) (fun fuel st st' h => ?_) hi
      fun fuel st s s' st' htest hrun hlast => ?_
    · rw [run_below] at h
      split at h
      · split at h <;> cases h
      · cases h
    · rw [run_below] at htest
      split at htest
      · rename_i a b ha hb
        split at htest
        · rename_i hab
          cases htest
          have hi' := (locals_of_kept hi hrun).trans ha
          rw [run_increment hi'] at hlast
          cases hlast
          have hless := gap_increment hin hi' ((locals_of_kept hn hrun).trans hb) hab
          simpa only [gap, ha, hb] using hless
        · cases htest
      · cases htest
  simpa [upTo, forever, hbody] using hloop

/-! ### Counting down -/

/-- How much is left in a local. -/
def remaining (i : UInt32) (ls : Array Value) : Nat :=
  match ls[i.toNat]? with
  | some (.i32 a) => a.toNat
  | _ => 0

theorem remaining_le (i : UInt32) (ls : Array Value) : remaining i ls ≤ UInt32.size := by
  unfold remaining
  split
  · rename_i a _
    exact a.toNat_lt.le
  · exact Nat.zero_le _

/-- The test goes on just when something is left. -/
theorem run_nonzero : run p fuel [push i, eqz, brIf 1] st =
      match st.locals[i.toNat]? with
      | some (.i32 a) => if a = 0 then .jump 1 st else .next st
      | _ => .halt .stuck st.store := by
  obtain ⟨store, locals, stack⟩ := st
  dsimp only
  rcases hi : locals[i.toNat]? with _ | v
  · rw [run_push_none hi]
  rw [run_push hi]
  rcases v with a | a
  · refine ((run_next (by simp) rfl).trans run_brIf).trans ?_
    by_cases ha : a = 0
    · subst ha
      rfl
    · rw [beq_false_of_ne ha]
      exact (if_neg ha).symm
  · exact run_stop (by simp) rfl (by simp)

theorem run_decrement (hi : st.locals[i.toNat]? = some (.i32 a)) :
    run p fuel [push i, const 1, sub, pop i, br 0] st =
      .jump 0 { st with locals := st.locals.setIfInBounds i.toNat (.i32 (a - 1)) } := by
  obtain ⟨store, locals, stack⟩ := st
  rw [run_push hi, run_next (by simp) rfl, run_next (by simp) rfl, run_next (by simp) rfl]
  exact run_stop (by simp) rfl (by simp)

theorem remaining_decrement {ls : Array Value} (hi : ls[i.toNat]? = some (.i32 a))
    (ha : a ≠ 0) : remaining i (ls.setIfInBounds i.toNat (.i32 (a - 1))) < a.toNat := by
  have hlt : i.toNat < ls.size := (Array.getElem?_eq_some_iff.1 hi).1
  have hpos : 0 < a.toNat := Nat.pos_of_ne_zero fun h => ha (UInt32.toNat_inj.1 h)
  have hpred : (a - 1).toNat = a.toNat - 1 :=
    UInt32.toNat_sub_of_le a 1 (UInt32.le_iff_toNat_le.2 hpos)
  simp only [remaining, Array.getElem?_setIfInBounds_self_of_lt hlt, hpred]
  omega

/-- A loop that counts a local down to zero. -/
theorem stepBounded_downFrom (hi : Keeps i body)
    (hbody : Bounded p body) :
    StepBounded p (forever ([push i, eqz, brIf 1] ++ (body ++ [push i, const 1, sub, pop i]))) := by
  have hloop : Progresses p ([push i, eqz, brIf 1] ++
      (body ++ [push i, const 1, sub, pop i, br 0])) := by
    refine progresses_rounds (remaining i) (remaining_le i) (fun fuel st st' h => ?_) hi
      fun fuel st s s' st' htest hrun hlast => ?_
    · rw [run_nonzero] at h
      split at h
      · split at h <;> cases h
      · cases h
    · rw [run_nonzero] at htest
      split at htest
      · rename_i a ha
        split at htest
        · cases htest
        · rename_i hne
          cases htest
          have hi' := (locals_of_kept hi hrun).trans ha
          rw [run_decrement hi'] at hlast
          cases hlast
          simpa only [remaining, ha] using remaining_decrement hi' hne
      · cases htest
  simpa [forever, hbody] using hloop

end MoveCodec.Machine
