import MoveCodec.Proofs.Machine.Fuel

/-!
# Renumbered functions

Code whose functions have other numbers does the same in a program that has them under those
numbers: `Embeds` says that every function of one program stands in another under its new number
and with the calls in its body renumbered, and `invoke_renumber` that calls give the same.
-/
namespace MoveCodec

open List

namespace Wasm

def Op.renumber (σ : UInt32 → UInt32) : Op → Op
  | .call f => .call (σ f)
  | o => o

def Instr.renumber (σ : UInt32 → UInt32) : Instr → Instr
  | .op o => .op (o.renumber σ)
  | i => i

namespace Code

mutual

def renumberStep (σ : UInt32 → UInt32) : Step → Step
  | .op o => .op (o.renumber σ)
  | .block t body => .block t (renumber σ body)
  | .loop t body => .loop t (renumber σ body)
  | .branch t yes no => .branch t (renumber σ yes) (renumber σ no)

def renumber (σ : UInt32 → UInt32) : List Step → List Step
  | [] => []
  | s :: rest => renumberStep σ s :: renumber σ rest

end

theorem renumber_eq_map (σ : UInt32 → UInt32) (code : Code) :
    renumber σ code = code.map (renumberStep σ) := by
  induction code with
  | nil => rfl
  | cons s code ih => rw [renumber, ih, map_cons]

/-! ## Trees of bodies -/

mutual

theorem nestFrom_flattenStep (outer : List (Opened × Code)) (done : Code) (rest : List Instr) :
    ∀ s : Step, nestFrom outer done (flattenStep s ++ rest) = nestFrom outer (s :: done) rest
  | .op o => rfl
  | .block t body | .loop t body | .branch t body [] => by
    simp only [flattenStep, append_assoc, cons_append, nil_append, nestFrom]
    rw [nestFrom_flatten]
    simp [nestFrom, Opened.close]
  | .branch t yes (s :: no) => by
    simp only [flattenStep, append_assoc, cons_append, nil_append, nestFrom]
    rw [nestFrom_flatten]
    simp only [nestFrom]
    rw [nestFrom_flatten]
    simp [nestFrom, Opened.close]

theorem nestFrom_flatten (outer : List (Opened × Code)) (done : Code) (rest : List Instr) :
    ∀ code : List Step,
      nestFrom outer done (flatten code ++ rest) = nestFrom outer (code.reverse ++ done) rest
  | [] => rfl
  | s :: code => by
    rw [flatten, append_assoc, nestFrom_flattenStep, nestFrom_flatten]
    simp

end

/-- The tree of a body that was made from code is the code. -/
theorem nest?_flatten (code : Code) : nest? (flatten code ++ [.endMark]) = some code := by
  rw [nest?, nestFrom_flatten]
  simp [nestFrom]

def Opened.renumber (σ : UInt32 → UInt32) : Opened → Opened
  | .no t taken => .no t (Code.renumber σ taken)
  | o => o

theorem close_renumber (σ : UInt32 → UInt32) (o : Opened) (body : Code) :
    (o.renumber σ).close (renumber σ body) = renumberStep σ (o.close body) := by
  cases o <;> simp [Opened.renumber, Opened.close, renumberStep, renumber]

theorem renumber_reverse (σ : UInt32 → UInt32) (code : Code) :
    renumber σ code.reverse = (renumber σ code).reverse := by
  simp [renumber_eq_map]

theorem nestFrom_renumber (σ : UInt32 → UInt32) (outer : List (Opened × Code)) (done : Code)
    (body : List Instr) :
    nestFrom (outer.map fun (o, before) => (o.renumber σ, renumber σ before)) (renumber σ done)
      (body.map (Instr.renumber σ)) = (nestFrom outer done body).map (renumber σ) := by
  induction body generalizing outer done with
  | nil => rfl
  | cons i body ih =>
    cases i with
    | op o => exact ih outer (.op o :: done)
    | block t => exact ih ((.block t, done) :: outer) []
    | loop t => exact ih ((.loop t, done) :: outer) []
    | ifStart t => exact ih ((.yes t, done) :: outer) []
    | elseMark =>
      cases outer with
      | nil => rfl
      | cons first outer =>
        obtain ⟨o, before⟩ := first
        cases o with
        | yes t =>
          have h := ih ((.no t done.reverse, before) :: outer) []
          simp only [map_cons, Opened.renumber, renumber_reverse] at h
          exact h
        | _ => rfl
    | endMark =>
      cases outer with
      | nil =>
        simp only [map_cons, map_nil, Instr.renumber, nestFrom, isEmpty_map]
        split
        · rw [← renumber_reverse]
          rfl
        · rfl
      | cons first outer =>
        obtain ⟨o, before⟩ := first
        have h := ih outer (o.close done.reverse :: before)
        simp only [renumber, ← close_renumber, renumber_reverse] at h
        exact h

/-- The tree of a renumbered body is the renumbered tree. -/
theorem nest?_renumber (σ : UInt32 → UInt32) (body : List Instr) :
    nest? (body.map (Instr.renumber σ)) = (nest? body).map (renumber σ) :=
  nestFrom_renumber σ [] [] body

end Code

end Wasm

namespace Machine

open Wasm

def Callee.renumber (σ : UInt32 → UInt32) : Callee → Callee
  | .code t locals body => .code t locals (Code.renumber σ body)
  | .host h => .host h

/-- The functions of `p` stand in `q` under the numbers that `σ` gives. -/
structure Embeds (σ : UInt32 → UInt32) (p q : Program) : Prop where
  types_eq : q.types = p.types
  funcs_eq : ∀ f : UInt32, q.funcs[(σ f).toNat]? = (p.funcs[f.toNat]?).map (Callee.renumber σ)

section

variable {σ : UInt32 → UInt32} {p q : Program}

theorem runWith_renumber {one two : Step → State → Result}
    (h : ∀ c s, two (Code.renumberStep σ c) s = one c s) (code : Code) (s : State) :
    runWith two (Code.renumber σ code) s = runWith one code s := by
  induction code generalizing s with
  | nil => rfl
  | cons c rest ih =>
    simp only [Code.renumber, runWith, h]
    cases one c s with
    | next s' => exact ih s'
    | _ => rfl

theorem Embeds.blockArity_eq (h : Embeds σ p q) (t : BlockType) :
    blockArity q t = blockArity p t := by
  rw [blockArity, blockArity, h.types_eq]

theorem Embeds.call_eq (h : Embeds σ p q) (fuel : Nat) (f : UInt32) (s : State)
    (hbody : ∀ n, fuel = n + 1 → ∀ (code : Code) (s : State),
      runWith (runStep q n) (Code.renumber σ code) s = runWith (runStep p n) code s) :
    runStep q fuel (.op (.call (σ f))) s = runStep p fuel (.op (.call f)) s := by
  rw [runStep.eq_1, runStep.eq_1, h.funcs_eq]
  cases p.funcs[f.toNat]? with
  | none => rfl
  | some callee =>
    cases callee with
    | host hostFunc => rfl
    | code type locals body =>
      cases fuel with
      | zero => rfl
      | succ n => simp only [Option.map_some, Callee.renumber, hbody n rfl]

theorem Embeds.op_eq (h : Embeds σ p q) (fuel : Nat) (o : Op) (s : State)
    (hbody : ∀ n, fuel = n + 1 → ∀ (code : Code) (s : State),
      runWith (runStep q n) (Code.renumber σ code) s = runWith (runStep p n) code s) :
    runStep q fuel (Code.renumberStep σ (.op o)) s = runStep p fuel (.op o) s := by
  by_cases hcall : ∃ f, o = .call f
  · obtain ⟨f, rfl⟩ := hcall
    exact h.call_eq fuel f s hbody
  · have ho : ∀ f, o ≠ .call f := fun f hf => hcall ⟨f, hf⟩
    have hsame : o.renumber σ = o := by
      cases o with
      | call f => exact absurd rfl (ho f)
      | _ => rfl
    rw [Code.renumberStep, hsame, runStep.eq_2 _ _ _ _ ho, runStep.eq_2 _ _ _ _ ho]

theorem Embeds.runStep_eq (h : Embeds σ p q) (fuel : Nat) (c : Step) (s : State) :
    runStep q fuel (Code.renumberStep σ c) s = runStep p fuel c s := by
  induction fuel generalizing c s with
  | zero =>
    cases c with
    | op o => exact h.op_eq 0 o s fun n hn => absurd hn (by omega)
    | _ => rfl
  | succ fuel ih =>
    have hbody := fun (code : Code) (s : State) => runWith_renumber ih code s
    cases c with
    | op o =>
      refine h.op_eq (fuel + 1) o s fun n hn => ?_
      cases hn
      exact hbody
    | block t body => simp only [Code.renumberStep, runStep, h.blockArity_eq, hbody]
    | loop t body =>
      have hloop : ∀ s, runStep q fuel (.loop t (Code.renumber σ body)) s =
          runStep p fuel (.loop t body) s := fun s => ih (.loop t body) s
      simp only [Code.renumberStep, runStep, h.blockArity_eq, hbody, hloop]
    | branch t yes no =>
      have hbranch : ∀ c : UInt32, (if c = 0 then Code.renumber σ no else Code.renumber σ yes) =
          Code.renumber σ (if c = 0 then no else yes) := by
        intro c
        split <;> rfl
      simp only [Code.renumberStep, runStep, h.blockArity_eq, hbranch, hbody]

/-- A call from outside gives the same under the new number. -/
theorem Embeds.invoke_eq (h : Embeds σ p q) (fuel : Nat) (f : UInt32) (args : List Value)
    (store : Store) : invoke q fuel (σ f) args store = invoke p fuel f args store := by
  have hcall : run q fuel [.op (.call (σ f))] ⟨store, #[], args.reverse⟩ =
      run p fuel [.op (.call f)] ⟨store, #[], args.reverse⟩ :=
    runWith_renumber (h.runStep_eq fuel) [.op (.call f)] _
  rw [invoke, invoke, hcall]

end

end Machine

end MoveCodec
