import MoveCodec.Proofs.Codec.Acceptance
import MoveCodec.Proofs.Package.Validity
import MoveCodec.Proofs.Types.Histories

/-!
# Which packages are generated

The exports of a package are generated one after another into one module. Each export has its own
condition, which does not depend on the others; beside it only the names of exports must differ.
-/
namespace MoveCodec

open Wasm Assembly Machine Prelude Codec List

variable {N : Set Request} {e : Entry} {module : String} {o : Options} {types : Array FuncType}
  {xs : List (String × Generate FuncId)} {S : Setting} {gen : Generate FuncId}

variable {name : String} {a b : Assembly} {d : Draft}

/-! ## One export -/

namespace Export

theorem add_run (name : String) (gen : Generate FuncId) (a : Assembly) :
    (add name gen).run a =
      match gen.run a with
      | .error e b => .error (e.prepend name) b
      | .ok f b =>
        if b.draft.isExported name then
          .error (.duplicate .codegen "" ("export " ++ Text.quote name ++ " is generated twice")) b
        else .ok () { b with draft := b.draft.exportFunc name f } := by
  rw [add, EStateM.run_bind, under, run_tryCatch]
  cases gen.run a with
  | error e b => rfl
  | ok f b =>
    simp only [EStateM.run_bind, EStateM.run_get]
    split_ifs <;> rfl

/-- An export was added: its function was generated, and its name was free. -/
theorem add_eq_ok (h : (add name gen).run a = .ok () b) : ∃ f c, gen.run a = .ok f c ∧
      c.draft.isExported name = false ∧ b = { c with draft := c.draft.exportFunc name f } := by
  rw [add_run] at h
  cases hgen : gen.run a with
  | error e c =>
    rw [hgen] at h
    cases h
  | ok f c =>
    rw [hgen] at h
    dsimp only at h
    split_ifs at h with hname
    cases h
    exact ⟨f, c, rfl, by simpa using hname, rfl⟩

/-- The first of several exports was added, and then the others. -/
theorem forM_cons_eq_ok {x : String × Generate FuncId}
    (h : ((x :: xs).forM fun (name, gen) => Export.add name gen).run a = .ok () b) :
    ∃ c, (Export.add x.1 x.2).run a = .ok () c ∧
      (xs.forM fun (name, gen) => Export.add name gen).run c = .ok () b := by
  rw [List.forM, EStateM.run_bind] at h
  cases hadd : (Export.add x.1 x.2).run a with
  | error e c =>
    rw [hadd] at h
    cases h
  | ok u c =>
    rw [hadd] at h
    exact ⟨c, rfl, h⟩

end Export

namespace Assembly

def Draft.exportNames (d : Draft) : List String := d.exports.map (·.name)

theorem Draft.isExported_iff :
    d.isExported name = true ↔ name ∈ d.exportNames := by
  simp [isExported, exportNames]

theorem Draft.exportNames_exportFunc (d : Draft) (name : String) (f : FuncId) :
    (d.exportFunc name f).exportNames = d.exportNames ++ [name] := by
  simp [exportFunc, addExport, exportNames]

theorem Draft.Lengthens.exportNames_eq {d' : Draft} (h : d.Lengthens d') :
    d'.exportNames = d.exportNames := by
  rw [exportNames, h.exports_eq, exportNames]

theorem Underway.exported {S : Setting} (h : Underway S ∅ ∅ a) (name : String)
    (f : FuncId) : Underway S ∅ ∅ { a with draft := a.draft.exportFunc name f } :=
  ⟨h.opened_sub, h.claimed_sub, h.cached, h.opened, h.answered, h.defined, h.imported, h.nodup,
    h.small, h.coded⟩

/-- A module without functions but the allocator. -/
theorem tidy_start (module : String) (o : Options) (host : String) :
    (start module o).Tidy host where
  cached e he := by cases he
  defined name hname := by
    cases mem_singleton.1 hname
    exact .inl rfl
  imported home name hname := by cases mem_singleton.1 hname
  nodup := nodup_singleton _
  coded e he := by
    cases mem_singleton.1 he
    exact .inr ⟨_, _, _, _, rfl⟩

theorem small_of_mem_start
    (he : e ∈ (start module o).draft.funcs) : e.Small := by
  cases mem_singleton.1 he
  exact ⟨by decide, by decide⟩

theorem underway_start {c : Context} {J : Set Request} (module : String) :
    Underway (judging c N J) ∅ ∅ (start module c.options) :=
  (tidy_start module c.options c.options.host).underway nofun (fun _ _ => rfl)
    fun _ _ he => small_of_mem_start he

theorem accommodates_start {xs : List Request}
    (hsymbols : ∀ x ∈ xs, ∀ y ∈ xs, x.symbol = y.symbol → x = y)
    (hargs : ∀ x ∈ xs, x.symbol ≠ "allocate" ∧ 4 * x.args.length + 16 ≤ UInt32.size)
    (hroom : xs.length + (1 + HostFunc.all.length) ≤ UInt32.size) :
    (start module o).Accommodates xs where
  symbol_inj x y hx hy := hsymbols x (hx.resolve_right nofun) y (hy.resolve_right nofun)
  symbol_ne x hx := (hargs x (hx.resolve_right nofun)).1
  room := by simpa [start] using hroom
  args_le x hx := (hargs x (hx.resolve_right nofun)).2
  small _ he := small_of_mem_start he

theorem nodup_exportNames_start (module : String) (o : Options) :
    (start module o).draft.exportNames.Nodup := by
  simp only [start, Draft.exportNames]
  split <;> decide

end Assembly

/-! ## All exports -/

section

variable {S : Setting}

/-- The generator of an export succeeds where nothing can collide. -/
abbrev Fulfilled (S : Setting) (gen : Generate FuncId) : Prop :=
  Verdict S ∅ ∅ True gen

/-- If all exports were generated, each of them was under its own condition, and their names
differ. -/
theorem fulfilled_of_run
    (ha : Underway S ∅ ∅ a) (hxs : ∀ x ∈ xs, ∃ V, Verdict S ∅ ∅ V x.2)
    (h : (xs.forM fun (name, gen) => Export.add name gen).run a = .ok () b)
    (hnames : a.draft.exportNames.Nodup) :
    Underway S ∅ ∅ b ∧ (a.draft.exportNames ++ xs.map (·.1)).Nodup ∧
      ∀ x ∈ xs, ∃ a f b, Underway S ∅ ∅ a ∧ x.2.run a = .ok f b := by
  induction xs generalizing a with
  | nil =>
    cases h
    exact ⟨ha, by simpa using hnames, nofun⟩
  | cons x xs ih =>
    obtain ⟨⟨V, hx⟩, hxs⟩ := forall_mem_cons.1 hxs
    obtain ⟨_, hadd, h⟩ := Export.forM_cons_eq_ok h
    obtain ⟨f, c, hgen, hfree, rfl⟩ := Export.add_eq_ok hadd
    obtain ⟨-, hlong, hready⟩ := hx.of_run ha hgen
    have hsame := hlong.exportNames_eq
    have hnew : x.1 ∉ c.draft.exportNames := by
      rw [← Draft.isExported_iff, hfree]
      exact Bool.false_ne_true
    have hnodup : (c.draft.exportFunc x.1 f).exportNames.Nodup := by
      rw [Draft.exportNames_exportFunc, hsame] at *
      exact hnames.append (nodup_singleton _) (disjoint_singleton.2 hnew)
    obtain ⟨hb, hall, hruns⟩ := ih (hready.exported x.1 f) hxs h hnodup
    refine ⟨hb, ?_, forall_mem_cons.2 ⟨⟨a, f, c, ha, hgen⟩, hruns⟩⟩
    rwa [Draft.exportNames_exportFunc, hsame, append_assoc] at hall

/-- If every export can be generated and their names differ, then they can be generated one after
another. -/
theorem exists_run_of_fulfilled (hS : S.Distinct)
    (ha : Underway S ∅ ∅ a) (hxs : ∀ x ∈ xs, Fulfilled S x.2)
    (hnames : (a.draft.exportNames ++ xs.map (·.1)).Nodup) :
    ∃ b, (xs.forM fun (name, gen) => Export.add name gen).run a = .ok () b ∧ Underway S ∅ ∅ b := by
  induction xs generalizing a with
  | nil => exact ⟨a, rfl, ha⟩
  | cons x xs ih =>
    obtain ⟨hx, hxs⟩ := forall_mem_cons.1 hxs
    obtain ⟨f, c, hgen⟩ := (hx.exists_run_iff hS ha).2 trivial
    obtain ⟨-, hlong, hready⟩ := hx.of_run ha hgen
    have hsame := hlong.exportNames_eq
    rw [map_cons] at hnames
    have hfree : c.draft.isExported x.1 = false := by
      rw [Bool.eq_false_iff, ne_eq, Draft.isExported_iff, hsame]
      exact fun hmem => (disjoint_of_nodup_append hnames) hmem (mem_cons_self ..)
    obtain ⟨b, hrun, hb⟩ := ih (hready.exported x.1 f) hxs (by
      rwa [Draft.exportNames_exportFunc, hsame, append_assoc])
    refine ⟨b, ?_, hb⟩
    rw [List.forM, EStateM.run_bind, Export.add_run, hgen]
    dsimp only
    rw [hfree]
    exact hrun

end

/-! ## Linking -/

mutual

theorem isSome_of_call_step {C : Frame} {f : UInt32} : ∀ {c : Step} {s s' : List ValType},
    Code.StepTyped C c s s' → .op (.call f) ∈ Code.flattenStep c → (C.funcs f).isSome = true
  | .op o, s, s', h, hf => by
    simp only [Code.flattenStep, mem_singleton, Instr.op.injEq] at hf
    subst hf
    obtain ⟨takes, gives, rest, hsome, -⟩ := h
    cases hfunc : C.funcs f with
    | none => simp [hfunc] at hsome
    | some t => rfl
  | .block t body, s, s', ⟨ft, rest, _, _, _, h⟩, hf =>
    isSome_of_call (C := C.enter ft.results) h (by simpa [Code.flattenStep] using hf)
  | .loop t body, s, s', ⟨ft, rest, _, _, _, h⟩, hf =>
    isSome_of_call (C := C.enter ft.params) h (by simpa [Code.flattenStep] using hf)
  | .branch t yes [], s, s', ⟨ft, rest, _, _, _, h, _⟩, hf =>
    isSome_of_call (C := C.enter ft.results) h (by simpa [Code.flattenStep] using hf)
  | .branch t yes (c :: no), s, s', ⟨ft, rest, _, _, _, h, h'⟩, hf => by
    have hf' : .op (.call f) ∈ Code.flatten yes ∨ .op (.call f) ∈ Code.flatten (c :: no) := by
      simpa [Code.flattenStep] using hf
    exact hf'.elim (isSome_of_call (C := C.enter ft.results) h)
      (isSome_of_call (C := C.enter ft.results) h')

theorem isSome_of_call {C : Frame} {f : UInt32} : ∀ {code : List Step} {s s' : List ValType},
    Code.Typed C code s s' → .op (.call f) ∈ Code.flatten code → (C.funcs f).isSome = true
  | [], _, _, _, hf => by cases hf
  | c :: rest, _, _, ⟨_, hc, hrest⟩, hf => by
    rw [Code.flatten, mem_append] at hf
    exact hf.elim (isSome_of_call_step hc) (isSome_of_call hrest)

end

namespace Assembly

theorem lt_of_typeOf? {f : FuncId}
    (h : ((d.program types).typeOf? f).isSome = true) : f.toNat < d.funcs.length := by
  rw [Program.typeOf?, Option.isSome_map, Option.isSome_iff_exists] at h
  obtain ⟨callee, hf⟩ := h
  simpa [Draft.program] using (Array.getElem?_eq_some_iff.1 hf).1

/-- A function that is typed and has its whole body can be linked. -/
theorem Entry.WellTyped.linkable
    (h : e.WellTyped (d.program types)) (hcoded : e.IsCoded) (hsmall : e.Small) :
    e.Linkable d.funcs.length := by
  rcases hcoded with himport | ⟨name, t, locals, code, rfl⟩
  · cases e with
    | imported => trivial
    | defined => cases himport
  · obtain ⟨code', hnest, hbody⟩ := h
    rw [Code.nest?_flatten, Option.some.injEq] at hnest
    subst hnest
    refine ⟨rfl, fun f hf => ?_⟩
    rw [mem_append, or_iff_left (by simp)] at hf
    have hparams := hsmall.1
    have hlocals := hsmall.2
    have htyped := hbody.typed (by omega)
    exact lt_of_typeOf? (isSome_of_call htyped.2 hf)

theorem Underway.checkNumbers_eq (h : Underway S ∅ ∅ a) (hS : S.Distinct) :
    a.draft.checkNumbers = .ok () := by
  have hlength := h.length_le hS
  rw [Draft.length_labels] at hlength
  unfold Draft.checkNumbers
  dsimp only
  rw [if_neg (Nat.not_lt.2 hlength), if_neg]
  simp only [Bool.not_eq_true', Bool.not_eq_false, all_eq_true]
  intro e he
  have hsmall := h.small hS e he
  cases e with
  | imported => rfl
  | defined name t locals body finished =>
    obtain ⟨hparams, hlocals⟩ := hsmall
    simp only [Bool.and_eq_true, decide_eq_true_eq]
    omega

end Assembly

/-- The functions of the module are typed, and those that are exported exist. -/
structure Exporting (a : Assembly) : Prop where
  sound : Sound typing a
  allocates : Always a.draft Allocates
  exported : ∀ e ∈ a.draft.exports, e.kind = Wasm.exportFunc →
    Always a.draft fun p => (p.typeOf? e.index).isSome = true

theorem exporting_start (name : String) (o : Options) : Exporting (start name o) where
  sound := sound_start name o
  allocates := always_allocates name o
  exported e he hkind := by
    rw [start] at he
    rcases mem_cons.1 he with rfl | he
    · cases hkind
    · split at he
      · cases mem_singleton.1 he
        exact (always_allocates name o).imp fun p hp => by rw [hp.1]; rfl
      · cases he

theorem Exporting.extend (h : Exporting a) (hsound : Sound typing b)
    (hext : a.draft.Extends b.draft) (hexports : b.draft.exports = a.draft.exports) :
    Exporting b where
  sound := hsound
  allocates := h.allocates.mono hext.keeps
  exported e he hkind := by
    rw [hexports] at he
    exact (h.exported e he hkind).mono hext.keeps

theorem Exporting.add (h : Exporting a) {t : FuncType}
    (hgen : Makes typing Allocates gen (IsTyped t))
    (hexports : ∀ f c, gen.run a = .ok f c → c.draft.exports = a.draft.exports)
    (hrun : (Export.add name gen).run a = .ok () b) : Exporting b := by
  obtain ⟨f, c, hc, -, rfl⟩ := Export.add_eq_ok hrun
  have hends := hgen a h.sound h.allocates
  rw [hc] at hends
  obtain ⟨hsound, hext, htyped⟩ := hends
  have hgrown := h.extend hsound hext (hexports f c hc)
  have hkeeps : c.draft.Keeps (c.draft.exportFunc name f) := ⟨le_rfl, fun _ _ _ h _ => h⟩
  refine ⟨hsound.grow hkeeps fun _ _ hi _ => .inl hi, hgrown.allocates.mono hkeeps,
    fun e he hkind => ?_⟩
  rcases mem_append.1 he with he | he
  · exact (hgrown.exported e he hkind).mono hkeeps
  · cases mem_singleton.1 he
    exact (htyped.mono hkeeps).imp fun p hp => by rw [hp.1]; rfl

theorem Exporting.forM {xs : List (String × Generate FuncId)} (h : Exporting a)
    (ha : Underway S ∅ ∅ a) (hxs : ∀ x ∈ xs, ∃ V, Verdict S ∅ ∅ V x.2)
    (htyped : ∀ x ∈ xs, ∃ t, Makes typing Allocates x.2 (IsTyped t))
    (hrun : (xs.forM fun (name, gen) => Export.add name gen).run a = .ok () b) : Exporting b := by
  induction xs generalizing a with
  | nil =>
    cases hrun
    exact h
  | cons x xs ih =>
    obtain ⟨⟨V, hx⟩, hxs⟩ := forall_mem_cons.1 hxs
    obtain ⟨⟨t, ht⟩, htyped⟩ := forall_mem_cons.1 htyped
    obtain ⟨c, hadd, hrest⟩ := Export.forM_cons_eq_ok hrun
    have hc := h.add ht (fun f c hc => (hx.of_run ha hc).2.1.exports_eq) hadd
    obtain ⟨f, c', hgen, -, rfl⟩ := Export.add_eq_ok hadd
    exact ih hc ((hx.of_run ha hgen).2.2.exported x.1 f) hxs htyped hrest

theorem Exporting.exists_link (h : Exporting a) (hready : Underway S ∅ ∅ a) (hS : S.Distinct) :
    ∃ m, a.draft.link = .ok m := by
  have hfits := (checkNumbers_eq_ok (hready.checkNumbers_eq hS)).1
  refine exists_link_eq_ok.2 ⟨fun e he => ?_, fun e he hkind => ?_⟩
  · obtain ⟨i, hi⟩ := mem_iff_getElem?.1 he
    have hcoded : e.IsCoded := (hready.coded hS e he).resolve_right fun ⟨x, hx, _⟩ => hx
    have hdone : e.isDone = true := by
      rcases hcoded with himport | ⟨name, t, locals, code, rfl⟩
      · cases e with
        | imported => rfl
        | defined => cases himport
      · rfl
    have htyped := h.sound.done i e hi hdone a.draft #[] (.refl _) hfits
    exact htyped.linkable hcoded (hready.small hS e he)
  · exact lt_of_typeOf? (h.exported e he hkind a.draft #[] (.refl _) hfits)

namespace Package

variable {p : Package}

def requests (p : Package) (config : CompileOptions) : List Request :=
  routines ++
  p.functions.flatMap (fun f => unpackValuesRequests p.registry f.params ++
    packValuesRequests p.registry f.results ++
    if config.echo && p.hasEcho f.params then packValuesRequests p.registry f.params else []) ++
  p.errors.flatMap (revertRequests p.registry) ++ p.events.flatMap (emitRequests p.registry) ++
  if config.storage then
    (p.objects.filter (·.arity ≤ 0)).flatMap fun d => Storage.objectRequests p.registry d.id []
  else []

/-- A function has a decoder and an encoder. -/
theorem mem_exports_of_function (config : CompileOptions) {f : PublicFunction}
    (hf : f ∈ p.functions) :
    (Export.decode f.name, unpackValues ⟨p.registry, config.options⟩ f.params) ∈
        p.exports config ∧
      (Export.encode f.name, packValues ⟨p.registry, config.options⟩ f.results) ∈
        p.exports config := by
  simp only [exports, mem_append, mem_flatMap]
  exact ⟨.inl (.inl (.inl ⟨f, hf, .inl (by simp)⟩)), .inl (.inl (.inl ⟨f, hf, .inl (by simp)⟩))⟩

theorem mem_exports_of_error (config : CompileOptions) {d : StructDef} (hd : d ∈ p.errors) :
    (Export.revert d.name, revert ⟨p.registry, config.options⟩ d) ∈ p.exports config := by
  simp only [exports, mem_append, mem_flatMap]
  exact .inl (.inl (.inr ⟨d, hd, by simp⟩))

theorem mem_exports_of_event (config : CompileOptions) {d : StructDef} (hd : d ∈ p.events) :
    (Export.emit d.name, emit ⟨p.registry, config.options⟩ d) ∈ p.exports config := by
  simp only [exports, mem_append, mem_map]
  exact .inl (.inr ⟨d, hd, rfl⟩)

theorem decides_exports (hr : p.registry.Made) (config : CompileOptions)
    (hN : ∀ x ∈ p.requests config, x ∈ N) :
    ∀ x ∈ p.exports config, ∃ V, Verdict (judging ⟨p.registry, config.options⟩ N Set.univ) ∅ ∅ V x.2 := by
  have hroutines : ∀ x ∈ routines, x ∈ N := fun x hx => hN x (by simp [requests, hx])
  intro x hx
  simp only [exports, mem_append, mem_flatMap, mem_map] at hx
  obtain ((⟨f, hf, hx⟩ | ⟨d, hd, hx⟩) | ⟨d, hd, rfl⟩) | hx := hx
  · rcases hx with hx | hx
    · simp only [mem_cons, not_mem_nil, or_false] at hx
      obtain rfl | rfl := hx
      · exact ⟨_, decides_unpackValues hr hroutines (fun y hy => hN y (by
          simp only [requests, mem_append, mem_flatMap]
          exact .inl (.inl (.inl (.inr ⟨f, hf, .inl (.inl hy)⟩))))) (.inl trivial)⟩
      · exact ⟨_, decides_packValues hr hroutines (fun y hy => hN y (by
          simp only [requests, mem_append, mem_flatMap]
          exact .inl (.inl (.inl (.inr ⟨f, hf, .inl (.inr hy)⟩))))) (.inl trivial)⟩
    · split at hx
      · rename_i hecho
        cases mem_singleton.1 hx
        exact ⟨_, decides_packValues hr hroutines (fun y hy => hN y (by
          simp only [requests, mem_append, mem_flatMap]
          exact .inl (.inl (.inl (.inr ⟨f, hf, .inr (by rwa [if_pos hecho])⟩))))) (.inl trivial)⟩
      · cases hx
  · have hlisted : ∀ y ∈ revertRequests p.registry d, y ∈ N := fun y hy => hN y (by
      simp only [requests, mem_append, mem_flatMap]
      exact .inl (.inl (.inr ⟨d, hd, hy⟩)))
    simp only [mem_cons, not_mem_nil, or_false] at hx
    obtain rfl | rfl := hx
    · exact ⟨_, decides_revert hr hroutines hlisted (.inl trivial)⟩
    · exact ⟨_, decides_raise hr hroutines hlisted (.inl trivial)⟩
  · exact ⟨_, decides_emit hr hroutines (fun y hy => hN y (by
      simp only [requests, mem_append, mem_flatMap]
      exact .inl (.inr ⟨d, hd, hy⟩))) (.inl trivial)⟩
  · split at hx
    · rename_i hstorage
      simp only [mem_flatMap, mem_cons, not_mem_nil, or_false] at hx
      obtain ⟨d, hd, hx⟩ := hx
      have hlisted : ∀ y ∈ Storage.objectRequests p.registry d.id [], y ∈ N :=
        fun y hy => hN y (by
          simp only [requests, mem_append, if_pos hstorage, mem_flatMap]
          exact .inr ⟨d, hd, hy⟩)
      have hq : Quiet N ∅ := ⟨hroutines, fun x hx => absurd hx (Set.notMem_empty x)⟩
      obtain rfl | rfl | rfl | rfl := hx
      · exact ⟨_, Storage.decides_save hr hq nofun hlisted⟩
      · exact ⟨_, Storage.decides_load hr hq nofun hlisted⟩
      · exact ⟨_, Storage.decides_read hr hq nofun hlisted⟩
      · exact ⟨_, Storage.decides_delete hq nofun hlisted⟩
    · cases hx

/-! ## A package with an error and an event -/

def transfer : StructDef where
  id := ⟨⟨Vector.replicate 32 7, "ledger"⟩, 0⟩
  name := "Transfer"
  abilities := { copy := true, drop := true }
  fields := [⟨"receiver", .address⟩, ⟨"amounts", .vector (.int .w64)⟩]

def rejected : StructDef where
  id := ⟨transfer.id.home, 1⟩
  name := "Rejected"
  role := .error
  fields := [⟨"transfer", transfer.type⟩]

def recorded : StructDef where
  id := ⟨transfer.id.home, 2⟩
  name := "Recorded"
  role := .event
  indexed := 1
  fields := [⟨"sender", .address⟩, ⟨"transfers", .vector (.vector transfer.type)⟩]

/-- A package with a function that takes several plain structs. -/
def ledger : Package where
  registry := { structs := [transfer, rejected, recorded] }
  home := transfer.id.home
  structs := [transfer]
  enums := []
  errors := [rejected]
  events := [recorded]
  functions := [⟨"submit", [.ref false (.vector transfer.type), .bool], [.bool]⟩]

theorem made_ledger : ledger.registry.Made :=
  Registry.made_edited .empty [.struct transfer 0, .struct rejected 0, .struct recorded 0]

theorem sized_ledger : Sized ledger.registry where
  variants d hd := by cases hd
  fields := by decide

end Package

end MoveCodec
