import MoveCodec.Proofs.Package.Validity

/-!
# Compiled code stops

Nothing in a compiled module runs for ever: no chain of calls comes back to where it began, every
loop has a measure that goes down, and so each call from outside ends.
-/
namespace MoveCodec.Package

open Wasm Assembly Machine

variable {p : Package} {config : CompileOptions}

theorem lt_of_code {m : Module (List Instr)} {e : Engine} {host : Host} {inst : Instance}
    (hinst : instantiate e host m = .ok inst) {f : UInt32} {c : Callee}
    (hf : inst.program.funcs[f.toNat]? = some c) :
    f.toNat < m.imports.length + m.funcs.length := by
  obtain ⟨funcs, imports, _, _, hfuncs, himports, -, -, rfl⟩ := instantiate_eq_ok hinst
  have hlt := (Array.getElem?_eq_some_iff.1 hf).1
  have hlength := (mapM_eq_ok.1 hfuncs).length_eq
  have hlength' := (mapM_eq_ok.1 himports).length_eq
  simp only [List.size_toArray, List.length_append, List.length_zip] at hlt hlength
  omega

/-- No function of an instance calls itself, not even through others, the loops of its code go
round at most once for each number of 32 bits, and a call of an export, whatever its arguments and
whatever memory, globals and host it finds, ends after finitely many steps. If its arguments fit,
it ends with results of its type, with a trap, or because the host fails. -/
theorem compile_stops {a : Artifact} (h : p.compile config = .ok a) {e : Engine} {host : Host}
    {inst : Instance} (hinst : instantiate e host a.module = .ok inst) :
    (WellFounded fun g f => inst.program.Calls f g) ∧
    (∀ (f : UInt32) t locals body, inst.program.funcs[f.toNat]? = some (.code t locals body) →
      ∀ loop ∈ Code.loops body, Progresses inst.program loop) ∧
    ∀ name f, inst.func? name = some f → ∃ t, inst.typeOf? f = some t ∧
      ∃ n, ∀ args store, ∃ r, r.outcome ≠ .error .outOfFuel ∧
        (∀ fuel, n ≤ fuel → invoke inst.program fuel f args store = r) ∧
        (HaveTypes args t.params → store.Fits (a.module.surroundings true) → r.Settled t) := by
  obtain ⟨d, hd, hlink⟩ := ready_of_compile h
  have hvalid := hd.valid hlink true
  refine ⟨⟨fun f => ?_⟩, fun f t locals body hbody loop hloop => ?_, fun name f hf => ?_⟩
  · by_cases hin : f.toNat < a.module.imports.length + a.module.funcs.length
    · exact (hd.funcStops hlink hinst hin).grounded
    · exact .intro f fun g ⟨_, _, _, hcode, _⟩ => absurd (lt_of_code hinst hcode) hin
  · exact (hd.bounded hlink hinst (lt_of_code hinst hbody) hbody).progresses _ hloop
  · have hin := lt_of_func? hvalid hinst hf
    obtain ⟨t, ht⟩ := hvalid.exists_typeOf? hin
    obtain ⟨n, hn⟩ := (hd.funcStops hlink hinst hin).invoke
    refine ⟨t, ?_, n, fun args store => ⟨_, (hn args store).1, (hn args store).2, ?_⟩⟩
    · rw [Instance.typeOf?_eq, typeOf?_instantiate hvalid.bodies.length_eq hinst, ht]
    · intro hargs hstore
      exact (settled_or_starved (hd.valid hlink false) hinst ht hargs hstore n).1.resolve_right
        (hn args store).1

theorem compile_stops_counter :
    ∃ a inst f t n, counter.compile { storage := true } = .ok a ∧
      instantiate {} {} a.module = .ok inst ∧ inst.func? (Export.decode "update") = some f ∧
      (WellFounded fun g f => inst.program.Calls f g) ∧ inst.typeOf? f = some t ∧
      ∀ args store, ∃ r, r.outcome ≠ .error .outOfFuel ∧
        ∀ fuel, n ≤ fuel → invoke inst.program fuel f args store = r := by
  obtain ⟨a, inst, f, ha, hinst, hf⟩ := exists_deployed_counter
  obtain ⟨hcalls, -, hends⟩ := compile_stops ha hinst
  obtain ⟨t, ht, n, hn⟩ := hends _ f hf
  refine ⟨a, inst, f, t, n, ha, hinst, hf, hcalls, ht, fun args store => ?_⟩
  obtain ⟨r, hr, hruns, -⟩ := hn args store
  exact ⟨r, hr, hruns⟩

end MoveCodec.Package
