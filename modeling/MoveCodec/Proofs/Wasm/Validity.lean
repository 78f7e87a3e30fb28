import MoveCodec.Proofs.Assembly.Link
import MoveCodec.Proofs.Machine.Termination

/-!
# Valid modules

A module is valid if its functions, imports, globals and exports keep to the rules. The program of
an instance of a valid module is typed, so calls of its functions do not get stuck.
-/
namespace MoveCodec

open List

variable {f : UInt32} {t : FuncType}

namespace Wasm

/-! ## Renumbered code -/

/-- `E'` has the functions of `E` under other numbers and is the same otherwise, except that it may
allow division where `E` does not. -/
structure Surroundings.Renumbers (σ : UInt32 → UInt32) (E E' : Surroundings) : Prop where
  types_eq : E'.types = E.types
  funcs : ∀ f t, E.funcs f = some t → E'.funcs (σ f) = some t
  globals_eq : E'.globals = E.globals
  memory_eq : E'.memory = E.memory
  division : E.division = true → E'.division = true

def Frame.within (C : Frame) (E : Surroundings) : Frame :=
  { E with locals := C.locals, labels := C.labels, results := C.results }

section

variable {σ : UInt32 → UInt32} {C : Frame} {E : Surroundings}
  (h : C.toSurroundings.Renumbers σ E)

include h

theorem Surroundings.Renumbers.blockType?_eq (t : BlockType) :
    (C.within E).blockType? t = C.blockType? t := by
  simp only [Frame.blockType?, Frame.within, h.types_eq]

theorem Op.signature?_renumber {o : Op} {takes gives : List ValType}
    (ho : o.signature? C = some (takes, gives)) :
    (o.renumber σ).signature? (C.within E) = some (takes, gives) := by
  cases o with
  | call f =>
    obtain ⟨t, hf, ht⟩ := Option.map_eq_some_iff.1 ho
    simp only [Op.renumber, Op.signature?, Frame.within, h.funcs f t hf, Option.map_some, ht]
  | i32Bin o =>
    simp only [Op.signature?, Bool.not_eq_true', Option.ite_none_left_eq_some] at ho
    have hdivision : ¬ (o = .divU ∧ E.division = false) := by
      rintro ⟨hdiv, hE⟩
      refine ho.1 ⟨hdiv, Bool.eq_false_iff.2 fun hC => ?_⟩
      exact absurd (h.division hC) (by simp [hE])
    simpa [Op.renumber, Op.signature?, Frame.within, hdivision] using ho.2
  | globalGet | globalSet =>
    simpa only [Op.renumber, Op.signature?, Frame.within, h.globals_eq] using ho
  | load | store | memorySize | memoryGrow | memoryCopy | memoryFill =>
    simpa only [Op.renumber, Op.signature?, Frame.within, h.memory_eq] using ho
  | _ => exact ho

theorem Op.Typed.renumber {o : Op} {s s' : List ValType} (ho : o.Typed C s s') :
    (o.renumber σ).Typed (C.within E) s s' := by
  cases o with
  | unreachable | br | brTable | ret | drop | select => exact ho
  | _ =>
    obtain ⟨takes, gives, rest, hsig, hs, hs'⟩ := ho
    exact ⟨takes, gives, rest, Op.signature?_renumber h hsig, hs, hs'⟩

end

namespace Code

mutual

theorem StepTyped.renumber {σ : UInt32 → UInt32} {E : Surroundings} {C : Frame}
    (h : C.toSurroundings.Renumbers σ E) :
    ∀ (c : Step) {s s' : List ValType}, StepTyped C c s s' →
      StepTyped (C.within E) (renumberStep σ c) s s'
  | .op _, _, _, hc => Op.Typed.renumber h hc
  | .block t body, _, _, ⟨ft, rest, ht, hs, hs', hbody⟩
  | .loop t body, _, _, ⟨ft, rest, ht, hs, hs', hbody⟩ =>
    ⟨ft, rest, (h.blockType?_eq t).trans ht, hs, hs',
      Typed.renumber (C := C.enter _) h body hbody⟩
  | .branch t yes no, _, _, ⟨ft, rest, ht, hs, hs', hyes, hno⟩ =>
    ⟨ft, rest, (h.blockType?_eq t).trans ht, hs, hs',
      Typed.renumber (C := C.enter _) h yes hyes, Typed.renumber (C := C.enter _) h no hno⟩

/-- Typed code stays typed when functions get other numbers. -/
theorem Typed.renumber {σ : UInt32 → UInt32} {E : Surroundings} {C : Frame}
    (h : C.toSurroundings.Renumbers σ E) :
    ∀ (code : List Step) {s s' : List ValType}, Typed C code s s' →
      Typed (C.within E) (Code.renumber σ code) s s'
  | [], _, _, hcode => hcode
  | c :: rest, _, _, ⟨m, hc, hrest⟩ => ⟨m, StepTyped.renumber h c hc, Typed.renumber h rest hrest⟩

end

end Code

theorem Surroundings.FuncTyped.renumber {σ : UInt32 → UInt32} {E E' : Surroundings}
    {locals : List ValType} {code : Code} (hcode : E.FuncTyped t locals code)
    (h : E.Renumbers σ E') : E'.FuncTyped t locals (Code.renumber σ code) :=
  ⟨hcode.1, Code.Typed.renumber h code hcode.2⟩

/-! ## Modules -/

def Const.type : Const → ValType
  | .i32 _ => .i32
  | .i64 _ => .i64

def Func.localTypes {Body : Type} (f : Func Body) : List ValType :=
  f.locals.flatMap fun l => List.replicate l.count.toNat l.type

namespace Module

def surroundings {Body : Type} (m : Module Body) (division : Bool) : Surroundings where
  types := m.types
  funcs := m.typeOf?
  globals := m.globals.map fun g => (g.type, g.mutable)
  memory := !m.memories.isEmpty
  division := division

/-- The body of a function with the type of number `k` keeps to the rules. -/
def FuncValid (m : Module (List Instr)) (division : Bool) (k : UInt32) (f : Func (List Instr)) :
    Prop :=
  ∃ t body, m.types[k.toNat]? = some t ∧ Code.nest? f.body = some body ∧
    (m.surroundings division).FuncTyped t f.localTypes body

/-- The module keeps to the rules, which may or may not allow division. -/
structure ValidWith (m : Module (List Instr)) (division : Bool) : Prop where
  imports : ∀ i ∈ m.imports, i.type.toNat < m.types.length
  bodies : List.Forall₂ (m.FuncValid division) m.funcs m.code
  globals : ∀ g ∈ m.globals, g.init.type = g.type
  exports : ∀ x ∈ m.exports, x.kind = exportFunc →
    x.index.toNat < m.imports.length + m.funcs.length

/-- The module keeps to the rules. -/
abbrev Valid (m : Module (List Instr)) : Prop := m.ValidWith true

/-- Functions of a valid module have types. -/
theorem ValidWith.exists_typeOf? {m : Module (List Instr)} {division : Bool}
    (h : m.ValidWith division) (hf : f.toNat < m.imports.length + m.funcs.length) :
    ∃ t, m.typeOf? f = some t := by
  have hkinds : ∀ k ∈ m.imports.map (·.type) ++ m.funcs, ∃ t, m.types[k.toNat]? = some t := by
    intro k hk
    rcases mem_append.1 hk with hk | hk
    · obtain ⟨i, hi, rfl⟩ := mem_map.1 hk
      exact ⟨_, getElem?_eq_getElem (h.imports i hi)⟩
    · obtain ⟨i, hi, rfl⟩ := mem_iff_getElem.1 hk
      obtain ⟨hlength, hbodies⟩ := forall₂_iff_get.1 h.bodies
      obtain ⟨t, _, ht, -⟩ := hbodies i hi (hlength ▸ hi)
      exact ⟨t, ht⟩
  have hlt : f.toNat < (m.imports.map (·.type) ++ m.funcs).length := by simpa using hf
  obtain ⟨t, ht⟩ := hkinds _ (getElem_mem hlt)
  refine ⟨t, ?_⟩
  rw [typeOf?, getElem?_eq_getElem hlt]
  exact ht

end Module

end Wasm

/-! ## Instances -/

namespace Machine

open Wasm Assembly

theorem Value.type_ofConst (c : Const) : (Value.ofConst c).type = c.type := by
  cases c <;> rfl

section

variable {e : Engine} {host : Host} {m : Module (List Instr)} {inst : Instance} {division : Bool}

theorem type_of_resolveImport {i : Import} {c : Callee} (h : resolveImport e m i = .ok c) :
    m.types[i.type.toNat]? = some c.type := by
  unfold resolveImport at h
  split at h
  · cases h
  · split at h
    · cases h
    · split at h
      · cases h
        assumption
      · cases h

theorem type_of_resolveBody {k : UInt32} {f : Func (List Instr)} {c : Callee}
    (h : resolveBody m k f = .ok c) : m.types[k.toNat]? = some c.type := by
  obtain ⟨t, code, ht, -, rfl⟩ := resolveBody_eq_ok h
  exact ht

/-- Functions of an instance have the types that the module gives them. -/
theorem typeOf?_instantiate (hlength : m.funcs.length = m.code.length)
    (h : instantiate e host m = .ok inst) (f : UInt32) :
    inst.program.typeOf? f = m.typeOf? f := by
  obtain ⟨funcs, imports, _, _, hfuncs, himports, -, -, rfl⟩ := instantiate_eq_ok h
  have hhosts : m.imports.map (fun i => m.types[i.type.toNat]?) =
      imports.map fun c => some c.type := by
    rw [← forall₂_eq_eq_eq, forall₂_map_left_iff, forall₂_map_right_iff]
    exact (mapM_eq_ok.1 himports).imp fun _ _ => type_of_resolveImport
  have hbodies : (m.funcs.zip m.code).map (fun x => m.types[x.1.toNat]?) =
      funcs.map fun c => some c.type := by
    rw [← forall₂_eq_eq_eq, forall₂_map_left_iff, forall₂_map_right_iff]
    exact (mapM_eq_ok.1 hfuncs).imp fun _ _ => type_of_resolveBody
  have hzip : (m.funcs.zip m.code).map (fun x => m.types[x.1.toNat]?) =
      m.funcs.map fun k => m.types[k.toNat]? := by
    conv_rhs => rw [← map_fst_zip hlength.le, map_map]
    rfl
  have hall : (m.imports.map (·.type) ++ m.funcs).map (fun k => m.types[k.toNat]?) =
      (imports ++ funcs).map fun c => some c.type := by
    rw [map_append, map_append, ← hbodies, hzip, ← hhosts, map_map]
    rfl
  have hat := congrArg (·[f.toNat]?) hall
  simp only [getElem?_map] at hat
  simp only [Program.typeOf?, Module.typeOf?, getElem?_toArray]
  cases hc : (imports ++ funcs)[f.toNat]? with
  | none =>
    rw [hc, Option.map_none, Option.map_eq_none_iff] at hat
    rw [hat]
    rfl
  | some c =>
    rw [hc, Option.map_some] at hat
    obtain ⟨k, hk, ht⟩ := Option.map_eq_some_iff.1 hat
    rw [hk]
    exact ht.symm

theorem Instance.typeOf?_eq (inst : Instance) (f : UInt32) :
    inst.typeOf? f = inst.program.typeOf? f := by
  unfold Instance.typeOf? Program.typeOf?
  cases inst.program.funcs[f.toNat]? with
  | none => rfl
  | some c => cases c <;> rfl

/-- Exported functions of an instance of a valid module are there. -/
theorem lt_of_func? (hm : m.ValidWith division) (h : instantiate e host m = .ok inst)
    {name : String} (hf : inst.func? name = some f) :
    f.toNat < m.imports.length + m.funcs.length := by
  obtain ⟨_, _, _, _, -, -, -, -, rfl⟩ := instantiate_eq_ok h
  obtain ⟨x, hx, rfl⟩ := Option.map_eq_some_iff.1 hf
  have hkind := find?_some hx
  simp only [Bool.and_eq_true, beq_iff_eq] at hkind
  exact hm.exports x (mem_of_find?_eq_some hx) hkind.2

/-- The program of an instance of a valid module is typed. -/
theorem program_typed (hm : m.ValidWith division) (h : instantiate e host m = .ok inst) :
    inst.program.Typed (m.surroundings division) where
  types_eq := by
    obtain ⟨_, _, _, _, -, -, -, -, rfl⟩ := instantiate_eq_ok h
    rfl
  typeOf_eq f t hf := (typeOf?_instantiate hm.bodies.length_eq h f).trans hf
  bodies f t locals body hf := by
    obtain ⟨funcs, imports, _, _, hfuncs, himports, -, -, rfl⟩ := instantiate_eq_ok h
    rw [getElem?_toArray] at hf
    rcases mem_append.1 (mem_of_getElem? hf) with hmem | hmem
    · obtain ⟨i, -, hi⟩ := exists_of_mapM_eq_ok himports hmem
      obtain ⟨_, -, hc⟩ := resolveImport_eq_ok hi
      cases hc
    · obtain ⟨⟨k, func⟩, hin, hbody⟩ := exists_of_mapM_eq_ok hfuncs hmem
      obtain ⟨t', code, ht, hcode, hc⟩ := resolveBody_eq_ok hbody
      cases hc
      obtain ⟨u, body, hu, hnest, htyped⟩ := (forall₂_iff_zip.1 hm.bodies).2 hin
      cases ht.symm.trans hu
      cases hcode.symm.trans hnest
      exact htyped

theorem store_fits (hm : m.ValidWith division) (h : instantiate e host m = .ok inst) :
    inst.store.Fits (m.surroundings division) := by
  obtain ⟨_, _, _, _, -, -, -, -, rfl⟩ := instantiate_eq_ok h
  simp only [Store.Fits, HaveTypes, Module.surroundings, map_map]
  refine map_congr_left fun g hg => ?_
  exact (Value.type_ofConst g.init).trans (hm.globals g hg)

/-- A call gives results of its type, or it stops in one of the ways that no check of the code can
rule out: where the code says so, on an access outside memory, or because the host fails. -/
def Return.Settled (t : FuncType) (r : Return) : Prop :=
  match r.outcome with
  | .ok vs => HaveTypes vs t.results
  | .error (.trap .unreachable) | .error (.trap .outOfBounds) | .error (.host _) => True
  | .error _ => False

/-- Calls of functions of a valid module settle unless they run out of fuel. -/
theorem settled_or_starved (hm : m.ValidWith false) (h : instantiate e host m = .ok inst)
    (hf : m.typeOf? f = some t) {args : List Value} {store : Store}
    (hargs : HaveTypes args t.params) (hstore : store.Fits (m.surroundings false)) (fuel : Nat) :
    ((invoke inst.program fuel f args store).Settled t ∨
        (invoke inst.program fuel f args store).outcome = .error .outOfFuel) ∧
      (invoke inst.program fuel f args store).store.Fits (m.surroundings false) := by
  obtain ⟨hout, hfits⟩ := invoke_typed (program_typed hm h) hf fuel hargs hstore
  refine ⟨?_, hfits⟩
  unfold Return.Settled
  cases hr : (invoke inst.program fuel f args store).outcome with
  | ok vs =>
    rw [hr] at hout
    exact .inl hout
  | error halt =>
    rw [hr] at hout
    cases halt with
    | host _ => exact .inl trivial
    | stuck => exact hout.elim
    | trap reason =>
      cases reason with
      | divideByZero => exact absurd hout Bool.false_ne_true
      | _ => exact .inl trivial
    | outOfFuel => exact .inr rfl

/-- Calls of functions of a valid module settle, given enough fuel. -/
theorem invoke_settled (hm : m.ValidWith false) (h : instantiate e host m = .ok inst)
    (hf : m.typeOf? f = some t) (hstops : FuncStops inst.program f) :
    ∃ n, ∀ fuel args store, HaveTypes args t.params → store.Fits (m.surroundings false) →
      ((invoke inst.program fuel f args store).Settled t ∨
        fuel < n ∧ (invoke inst.program fuel f args store).outcome = .error .outOfFuel) ∧
      (invoke inst.program fuel f args store).store.Fits (m.surroundings false) := by
  obtain ⟨n, hn⟩ := hstops.invoke
  refine ⟨n, fun fuel args store hargs hstore => ?_⟩
  obtain ⟨hsettled, hfits⟩ := settled_or_starved hm h hf hargs hstore fuel
  refine ⟨hsettled.imp_right fun hstarved => ⟨Nat.lt_of_not_le fun hle => ?_, hstarved⟩, hfits⟩
  rw [(hn args store).2 fuel hle] at hstarved
  exact (hn args store).1 hstarved

end

end Machine

end MoveCodec
