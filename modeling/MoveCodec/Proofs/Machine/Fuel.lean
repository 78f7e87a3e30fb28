import Mathlib
import MoveCodec.Machine.Exec

/-!
# Fuel

A run that does not stop for want of fuel ends in the same way with any more of it. What a body
does is therefore stated with enough fuel: `Ends` says how a run ends once it is given at least a
certain amount, and a call that gave its results under one amount of fuel gives the same under
every amount for which it is not starved.
-/
namespace MoveCodec.Machine

open Wasm

/-- The run stopped for want of fuel. -/
def Result.Starved : Result → Prop
  | .halt .outOfFuel _ => True
  | _ => False

theorem Result.not_starved {r : Result} (h : ∀ store, r ≠ .halt .outOfFuel store) :
    ¬ r.Starved := by
  intro hstarved
  unfold Starved at hstarved
  split at hstarved
  · exact h _ rfl
  · exact hstarved

section

variable {p : Program}

theorem runWith_congr {one two : Step → State → Result}
    (h : ∀ c s, ¬ (one c s).Starved → two c s = one c s) (code : Code) (s : State)
    (hs : ¬ (runWith one code s).Starved) : runWith two code s = runWith one code s := by
  induction code generalizing s with
  | nil => rfl
  | cons c rest ih =>
    have hc : ¬ (one c s).Starved :=
      Result.not_starved fun store hr => hs (by rw [runWith, hr]; trivial)
    simp only [runWith, h c s hc] at hs ⊢
    cases hr : one c s with
    | next s' =>
      simp only [hr] at hs ⊢
      exact ih s' hs
    | jump | ret | halt => rfl

/-- One more unit of fuel changes nothing for a step that is not starved. -/
theorem runStep_succ (fuel : Nat) (c : Step) (s : State)
    (h : ¬ (runStep p fuel c s).Starved) : runStep p (fuel + 1) c s = runStep p fuel c s := by
  induction fuel generalizing c s with
  | zero =>
    cases c with
    | op o =>
      cases o with
      | call f =>
        simp only [runStep] at h ⊢
        cases hf : p.funcs[f.toNat]? with
        | none => rfl
        | some callee =>
          cases callee with
          | host hostFunc => rfl
          | code type locals body => simp [hf, Result.Starved] at h
      | _ => rfl
    | block | loop | branch => exact absurd trivial h
  | succ fuel ih =>
    -- A body runs with one unit less, so the induction hypothesis covers each of its steps.
    have body_eq : ∀ (code : Code) (s' : State), ¬ (runWith (runStep p fuel) code s').Starved →
        runWith (runStep p (fuel + 1)) code s' = runWith (runStep p fuel) code s' :=
      fun code s' hs => runWith_congr ih code s' hs
    cases c with
    | op o =>
      cases o with
      | call f =>
        simp only [runStep] at h ⊢
        cases hf : p.funcs[f.toNat]? with
        | none => rfl
        | some callee =>
          cases callee with
          | host hostFunc => rfl
          | code type locals body =>
            simp only [hf] at h ⊢
            cases hargs : popArgs type.params.length s.stack with
            | none => rfl
            | some split =>
              obtain ⟨args, below⟩ := split
              simp only [hargs] at h ⊢
              rw [body_eq]
              exact Result.not_starved fun store hr => h (by rw [hr]; trivial)
      | _ => rfl
    | block t body =>
      simp only [runStep] at h ⊢
      rw [body_eq]
      exact Result.not_starved fun store hr => h (by rw [hr]; trivial)
    | loop t body =>
      simp only [runStep] at h ⊢
      have hbody : ¬ (runWith (runStep p fuel) body
          { s with stack := s.stack.take (blockArity p t).1 }).Starved :=
        Result.not_starved fun store hr => h (by rw [hr]; trivial)
      rw [body_eq _ _ hbody]
      cases hr : runWith (runStep p fuel) body
          { s with stack := s.stack.take (blockArity p t).1 } with
      | next | ret | halt => rfl
      | jump l c =>
        cases l with
        | zero =>
          simp only [hr] at h ⊢
          exact ih _ _ h
        | succ l => rfl
    | branch t yes no =>
      simp only [runStep] at h ⊢
      split at h <;> try rfl
      rename_i c stack hstack
      rw [body_eq]
      exact Result.not_starved fun store hr => h (by rw [hr]; trivial)

/-- More fuel does not change what a call gives. -/
theorem invoke_of_le {fuel k : Nat} {f : UInt32} {args vs : List Value} {store : Store}
    (h : (invoke p fuel f args store).outcome = .ok vs) (hle : fuel ≤ k) :
    invoke p k f args store = invoke p fuel f args store := by
  induction k, hle using Nat.le_induction with
  | base => rfl
  | succ k _ ih =>
    rw [← ih] at h ⊢
    have hfed : ¬ (runStep p k (.op (.call f)) ⟨store, #[], args.reverse⟩).Starved := by
      intro hstarved
      rw [invoke, run, runWith] at h
      cases hr : runStep p k (.op (.call f)) ⟨store, #[], args.reverse⟩ with
      | next => rw [hr] at hstarved; cases hstarved
      | _ => rw [hr] at h; cases h
    rw [invoke, run, runWith, runStep_succ _ _ _ hfed]
    rfl

end

end MoveCodec.Machine
