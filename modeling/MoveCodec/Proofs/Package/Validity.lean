import MoveCodec.Package.Compile
import MoveCodec.Proofs.Assembly.Validity
import MoveCodec.Proofs.Codec.TypedValues

/-!
# Compiled packages are valid

Whatever a package compiles to is a valid module, and calls of its exports return, trap where the
code says so, access memory out of bounds, or stop because the host fails.
-/
namespace MoveCodec

open Wasm Assembly Machine Prelude Codec List

/-! ## The draft of a package -/

theorem sound_start (name : String) (o : Options) : Sound typing (start name o) where
  cached _ _ _ h := by cases h
  done i e hi _ := by
    obtain ⟨rfl, rfl⟩ : i = 0 ∧
        e = .coded "allocate" ⟨[.i32], [.i32]⟩ allocateLocals allocateBody := by
      cases i with
      | zero =>
        cases hi
        exact ⟨rfl, rfl⟩
      | succ => cases hi
    exact fun _ _ _ _ => ⟨allocateBody, Code.nest?_flatten _, typed_allocateBody⟩

theorem always_allocates (name : String) (o : Options) :
    Always (start name o).draft Allocates := by
  have hentry : (start name o).draft.funcs[allocate.toNat]? =
      some (.coded "allocate" ⟨[.i32], [.i32]⟩ allocateLocals allocateBody) := rfl
  refine (always_callee hentry rfl).imp fun p hp => ?_
  rw [Entry.callee_coded] at hp
  exact ⟨by simp [Program.typeOf?, hp, Callee.type],
    funcStops_code hp typed_allocateBody.bounded⟩

theorem makes_add {S : Spec} {H : Program → Prop} {gen : Generate FuncId}
    {Q : FuncId → Program → Prop} (name : String) (h : Makes S H gen Q) :
    Makes S H (Export.add name gen) fun _ _ => True := by
  refine .bind (.under h) fun f a ha _ => ?_
  simp only [EStateM.run_bind, EStateM.run_get]
  split
  · exact ⟨ha, .refl _⟩
  · have hext : a.draft.Extends (a.draft.exportFunc name f) :=
      ⟨le_rfl, fun _ => prefix_rfl, rfl, rfl, rfl⟩
    exact ⟨ha.grow hext.keeps fun _ _ hi _ => .inl hi, hext, fun _ _ _ _ => trivial⟩

theorem checkNumbers_eq_ok {d : Draft} (h : d.checkNumbers = .ok ()) :
    d.Fits ∧ ∀ name t locals body finished, Entry.defined name t locals body finished ∈ d.funcs →
      t.params.length + locals.length ≤ UInt32.size := by
  unfold Draft.checkNumbers at h
  dsimp only at h
  split at h
  · cases h
  · rename_i hfuncs
    split at h
    · cases h
    · rename_i hlocals
      simp only [Bool.not_eq_true', Bool.not_eq_false, all_eq_true] at hlocals
      have hentry : ∀ name t locals body finished,
          Entry.defined name t locals body finished ∈ d.funcs → locals.length < UInt32.size ∧
            t.params.length + locals.length ≤ UInt32.size := by
        intro name t locals body finished hmem
        simpa using hlocals _ hmem
      exact ⟨⟨Nat.le_of_not_lt hfuncs, fun name t locals body finished hmem =>
          (hentry name t locals body finished hmem).1⟩,
        fun name t locals body finished hmem => (hentry name t locals body finished hmem).2⟩

namespace Package

variable {p : Package} {config : CompileOptions} {a : Artifact}

theorem typed_exports (p : Package) (config : CompileOptions) :
    ∀ x ∈ p.exports config, ∃ t, Makes typing Allocates x.2 (IsTyped t) := by
  have hH : ∀ q, Allocates q → Allocates q := fun _ h => h
  intro x hx
  simp only [exports, mem_append, mem_flatMap, mem_map] at hx
  obtain ((⟨f, -, hx⟩ | ⟨d, -, hx⟩) | ⟨d, -, rfl⟩) | hx := hx
  · rcases hx with hx | hx
    · simp only [mem_cons, not_mem_nil, or_false] at hx
      obtain rfl | rfl := hx
      · exact ⟨_, typed_unpackValues hH f.params⟩
      · exact ⟨_, typed_packValues hH f.results⟩
    · split at hx
      · cases mem_singleton.1 hx
        exact ⟨_, typed_packValues hH f.params⟩
      · cases hx
  · simp only [mem_cons, not_mem_nil, or_false] at hx
    obtain rfl | rfl := hx
    · exact ⟨_, typed_revert hH d⟩
    · exact ⟨_, typed_raise hH d⟩
  · exact ⟨_, typed_emit hH d⟩
  · split at hx
    · simp only [mem_flatMap, mem_cons, not_mem_nil, or_false] at hx
      obtain ⟨d, -, rfl | rfl | rfl | rfl⟩ := hx
      · exact ⟨_, Storage.typed_save hH d.id []⟩
      · exact ⟨_, Storage.typed_load hH d.id []⟩
      · exact ⟨_, Storage.typed_read hH d.id []⟩
      · exact ⟨_, Storage.typed_delete hH d.id []⟩
    · cases hx

theorem makes_forM {S : Spec} {H : Program → Prop} {xs : List (String × Generate FuncId)}
    (h : ∀ x ∈ xs, ∃ Q, Makes S H x.2 Q) :
    Makes S H (xs.forM fun (name, gen) => Export.add name gen) fun _ _ => True := by
  induction xs with
  | nil => exact .pure fun _ _ => trivial
  | cons x xs ih =>
    obtain ⟨⟨Q, hQ⟩, hxs⟩ := forall_mem_cons.1 h
    exact .bind (makes_add x.1 hQ) fun _ => (ih hxs).mono (fun _ hp => hp.1) fun _ _ _ _ => trivial

/-- What a package compiles to comes from a draft whose functions and locals can be numbered. -/
theorem compile_eq_ok (h : p.compile config = .ok a) :
    ∃ b, ((p.exports { config with options := config.options.withDefaults }).forM
        fun (name, gen) => Export.add name gen).run
          (start p.home.name config.options.withDefaults) = .ok () b ∧
      b.draft.checkNumbers = .ok () ∧ b.draft.link = .ok a.module ∧
      p.interface = .ok a.entries := by
  unfold compile at h
  dsimp only at h
  split at h
  · cases h
  · rename_i b hrun
    obtain ⟨_, hnumbers, h⟩ := bind_eq_ok h
    obtain ⟨m, hlink, h⟩ := bind_eq_ok h
    obtain ⟨entries, hentries, h⟩ := bind_eq_ok h
    cases h
    exact ⟨b, hrun, hnumbers, hlink, hentries⟩

theorem sound_of_run {module : String} {o : Options} {b : Assembly}
    (hrun : ((p.exports config).forM fun (name, gen) => Export.add name gen).run (start module o) =
      .ok () b) :
    Sound typing b ∧ (start module o).draft.Extends b.draft := by
  have hmakes := makes_forM fun x hx =>
    (typed_exports p config x hx).imp' (fun t => IsTyped t) fun _ h => h
  have hends := hmakes _ (sound_start ..) (always_allocates module o)
  rw [hrun] at hends
  exact ⟨hends.1, hends.2.1⟩

theorem ready_of_compile (h : p.compile config = .ok a) :
    ∃ d : Draft, d.Ready a.module.types.toArray ∧ d.link = .ok a.module := by
  obtain ⟨b, hrun, hnumbers, hlink, -⟩ := compile_eq_ok h
  obtain ⟨hfits, hlocals⟩ := checkNumbers_eq_ok hnumbers
  obtain ⟨hsound, hext⟩ := sound_of_run hrun
  refine ⟨b.draft, ⟨hfits, fun e he => ?_, hlocals, hext.globals_eq, ?_⟩, hlink⟩
  · obtain ⟨i, hi⟩ := mem_iff_getElem?.1 he
    refine hsound.done i e hi ?_ b.draft _ (.refl _) hfits
    have hlinkable := (exists_link_eq_ok.1 ⟨_, hlink⟩).1 e he
    cases e with
    | imported => rfl
    | defined => exact hlinkable.1
  · rw [hext.memory_eq]
    rfl

/-- A package that compiles gives a valid module. A call of an export with arguments of its type, in
any memory and with any host, leaves globals of their types and does not get stuck: given enough
fuel, it returns results of its type, runs into a trap that stands in the code, accesses memory out
of bounds, or stops because the host fails. -/
theorem compile_valid {a : Artifact} (h : p.compile config = .ok a) :
    a.module.Valid ∧ ∀ (e : Engine) (host : Host) (inst : Instance),
      instantiate e host a.module = .ok inst →
        inst.store.Fits (a.module.surroundings true) ∧
        ∀ name f, inst.func? name = some f → ∃ t, inst.typeOf? f = some t ∧
          ∃ n, ∀ fuel args store, HaveTypes args t.params →
            store.Fits (a.module.surroundings true) →
              ((invoke inst.program fuel f args store).Settled t ∨ fuel < n ∧
                (invoke inst.program fuel f args store).outcome = .error .outOfFuel) ∧
              (invoke inst.program fuel f args store).store.Fits (a.module.surroundings true) := by
  obtain ⟨d, hd, hlink⟩ := ready_of_compile h
  have hvalid := hd.valid hlink true
  refine ⟨hvalid, fun e host inst hinst => ⟨store_fits hvalid hinst, fun name f hf => ?_⟩⟩
  have hin := lt_of_func? hvalid hinst hf
  obtain ⟨t, ht⟩ := hvalid.exists_typeOf? hin
  refine ⟨t, ?_, invoke_settled (hd.valid hlink false) hinst ht (hd.funcStops hlink hinst hin)⟩
  rw [Instance.typeOf?_eq, typeOf?_instantiate hvalid.bodies.length_eq hinst, ht]

/-- Compiles a package, makes an instance and finds an export. -/
def deploy? (p : Package) (config : CompileOptions) (name : String) :
    Option (Artifact × Instance × UInt32) :=
  match p.compile config with
  | .error _ => none
  | .ok a =>
    match instantiate {} {} a.module with
    | .error _ => none
    | .ok inst => (inst.func? name).map fun f => (a, inst, f)

theorem deploy?_eq_some {name : String} {inst : Instance} {f : UInt32}
    (h : p.deploy? config name = some (a, inst, f)) :
    p.compile config = .ok a ∧ instantiate {} {} a.module = .ok inst ∧
      inst.func? name = some f := by
  unfold deploy? at h
  split at h
  · cases h
  · rename_i hcompile
    split at h
    · cases h
    · rename_i hinst
      obtain ⟨f', hf, h⟩ := Option.map_eq_some_iff.1 h
      cases h
      exact ⟨hcompile, hinst, hf⟩

/-- A package with one object and a function that takes it. -/
def counter : Package :=
  let home : ModuleId := ⟨Vector.replicate 32 7, "counter"⟩
  let object : StructDef := {
    id := ⟨home, 0⟩, name := "Counter", abilities := { key := true, store := true },
    fields := [⟨"id", .struct Framework.uniqueIdentifier []⟩, ⟨"value", .int .w64⟩] }
  { registry := { structs := object :: (Framework.register {}).2.structs }
    home, structs := [object], enums := [], errors := [], events := []
    functions := [⟨"update", [.struct object.id [], .vector (.int .w128)], [.int .w64]⟩] }

theorem exists_deployed_counter : ∃ a inst f, counter.compile { storage := true } = .ok a ∧
    instantiate {} {} a.module = .ok inst ∧ inst.func? (Export.decode "update") = some f := by
  have hdeploy : (counter.deploy? { storage := true } (Export.decode "update")).isSome = true := by
    decide +kernel
  obtain ⟨⟨a, inst, f⟩, hsome⟩ := Option.isSome_iff_exists.1 hdeploy
  exact ⟨a, inst, f, deploy?_eq_some hsome⟩

theorem compile_valid_counter :
    ∃ a inst f t n, counter.compile { storage := true } = .ok a ∧
      instantiate {} {} a.module = .ok inst ∧ inst.func? (Export.decode "update") = some f ∧
      a.module.Valid ∧ inst.typeOf? f = some t ∧ ∀ fuel args, n ≤ fuel → HaveTypes args t.params →
        (invoke inst.program fuel f args inst.store).Settled t := by
  obtain ⟨a, inst, f, ha, hinst, hf⟩ := exists_deployed_counter
  obtain ⟨hvalid, hruns⟩ := compile_valid ha
  obtain ⟨hstore, hcalls⟩ := hruns {} {} inst hinst
  obtain ⟨t, ht, n, hn⟩ := hcalls _ f hf
  refine ⟨a, inst, f, t, n, ha, hinst, hf, hvalid, ht, fun fuel args hfuel hargs => ?_⟩
  obtain hsettled | ⟨hless, -⟩ := (hn fuel args inst.store hargs hstore).1
  · exact hsettled
  · exact absurd hless (Nat.not_lt.2 hfuel)

end Package

end MoveCodec
