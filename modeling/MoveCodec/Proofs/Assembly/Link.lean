import MoveCodec.Machine.Instance
import MoveCodec.Proofs.Assembly.Numbering

/-!
# Linking

A draft has a program of its own, in which functions have their logical numbers. `link_embeds`
says that an instance of the linked module has every function of that program under its final
number, so calls into the instance do what calls into the program of the draft do.
-/
namespace MoveCodec.Assembly

open Wasm Machine List

variable {host : Host} {i : Import} {inst : Instance} {α β γ : Type} {R : α → β → Prop} {g : α → γ}
  {xs : List α} {ys : List β}

variable {e : Entry} {d : Draft} {engine : Engine} {m : Module (List Instr)} {c : Callee}

/-- The callee behind a function of a draft. -/
def Entry.callee : Entry → Callee
  | .imported _ name _ => .host ((HostFunc.ofName? name).getD .readArgs)
  | .defined _ t locals body _ => .code t locals ((Code.nest? body).getD [])

/-- The functions of a draft under their logical numbers. -/
def Draft.program (d : Draft) (types : Array FuncType) : Program :=
  ⟨types, (d.funcs.map Entry.callee).toArray⟩

/-- Functions and locals can be numbered with 32 bits, as the format of modules asks for. -/
structure Draft.Fits (d : Draft) : Prop where
  funcs_le : d.funcs.length ≤ UInt32.size
  locals_lt : ∀ name t locals body finished,
    Entry.defined name t locals body finished ∈ d.funcs → locals.length < UInt32.size

/-- Runs of locals taken apart again. -/
theorem flatMap_localRuns {locals : List ValType} (h : locals.length < UInt32.size) :
    (Draft.localRuns locals).flatMap (fun l => List.replicate l.count.toNat l.type) = locals := by
  induction locals with
  | nil => rfl
  | cons t rest ih =>
    have hrest := ih (by simp at h; omega)
    rw [Draft.localRuns]
    cases hruns : Draft.localRuns rest with
    | nil =>
      rw [hruns] at hrest
      simp only [flatMap_nil] at hrest
      simp [← hrest]
    | cons run runs =>
      obtain ⟨n, u⟩ := run
      rw [hruns, flatMap_cons] at hrest
      have hlen := congrArg List.length hrest
      simp only [length_append, length_replicate] at hlen
      dsimp only
      split
      · rename_i ht
        subst ht
        have hn : (n + 1).toNat = n.toNat + 1 := by
          rw [UInt32.toNat_add]
          have h1 : (1 : UInt32).toNat = 1 := rfl
          simp only [length_cons, UInt32.size] at h
          rw [h1]
          omega
        rw [flatMap_cons, hn, replicate_succ, cons_append, hrest]
      · rw [flatMap_cons, flatMap_cons, hrest]
        rfl

/-! ## Resolution -/

theorem resolveImport_eq_ok (h : resolveImport engine m i = .ok c) :
    ∃ f, HostFunc.ofName? i.name = some f ∧ c = .host f := by
  unfold resolveImport at h
  split at h
  · cases h
  · split at h
    · cases h
    · rename_i f hf
      split at h
      · cases h
        exact ⟨f, hf, rfl⟩
      · cases h

theorem resolveBody_eq_ok {i : UInt32} {f : Func (List Instr)} (h : resolveBody m i f = .ok c) :
    ∃ t code, m.types[i.toNat]? = some t ∧ Code.nest? f.body = some code ∧
      c = .code t (f.locals.flatMap fun l => List.replicate l.count.toNat l.type) code := by
  unfold resolveBody at h
  split at h
  · rename_i t code ht hcode
    cases h
    exact ⟨t, code, ht, hcode, rfl⟩
  · cases h

theorem resolveImport_entry (σ : UInt32 → UInt32) (he : e.isImport = true)
    (hi : i = e.import i.type) (h : resolveImport engine m i = .ok c) :
    c = e.callee.renumber σ := by
  obtain ⟨f, hf, rfl⟩ := resolveImport_eq_ok h
  cases e with
  | imported home name t =>
    rw [hi] at hf
    have hf : HostFunc.ofName? name = some f := hf
    simp [Entry.callee, Callee.renumber, hf]
  | defined => cases he

theorem resolveBody_entry {k : UInt32} {σ : UInt32 → UInt32} (he : e ∈ ofKind false d.funcs)
    (hfits : d.Fits) (hk : m.types[k.toNat]? = some e.type)
    (h : resolveBody m k (e.func σ) = .ok c) : c = e.callee.renumber σ := by
  obtain ⟨t, code, ht, hcode, rfl⟩ := resolveBody_eq_ok h
  obtain rfl : t = e.type := Option.some.inj (ht.symm.trans hk)
  obtain ⟨hmem, hdefined⟩ := mem_filter.1 he
  cases e with
  | imported => cases hdefined
  | defined name t locals body finished =>
    obtain ⟨tree, htree, rfl⟩ := Option.map_eq_some_iff.1 ((Code.nest?_renumber _ _).symm.trans hcode)
    have hruns := flatMap_localRuns (hfits.locals_lt _ _ _ _ _ hmem)
    simp [Entry.callee, Callee.renumber, htree, Entry.func, hruns, Entry.type]

/-- What `instantiate` gives. -/
theorem instantiate_eq_ok
    (h : instantiate engine host m = .ok inst) :
    ∃ funcs imports memory memory',
      (m.funcs.zip m.code).mapM (fun (t, f) => resolveBody m t f) = .ok funcs ∧
      m.imports.mapM (resolveImport engine m) = .ok imports ∧
      memoryOf engine m.memories = .ok memory ∧ placeData 0 memory m.data = .ok memory' ∧
      inst = ⟨⟨m.types.toArray, (imports ++ funcs).toArray⟩, m.exports,
        ⟨memory', (m.globals.map fun g => Value.ofConst g.init).toArray, host⟩⟩ := by
  unfold instantiate at h
  obtain ⟨memory, hmemory, h⟩ := bind_eq_ok h
  obtain ⟨-, -, h⟩ := bind_eq_ok h
  obtain ⟨-, -, h⟩ := bind_eq_ok h
  obtain ⟨funcs, hfuncs, h⟩ := bind_eq_ok h
  obtain ⟨imports, himports, h⟩ := bind_eq_ok h
  obtain ⟨memory', hmemory', h⟩ := bind_eq_ok h
  cases h
  exact ⟨funcs, imports, memory, memory', hfuncs, himports, hmemory, hmemory', rfl⟩

theorem forall₂_zip_map
    (h : List.Forall₂ R xs ys) :
    List.Forall₂ (fun x z => R x z.1 ∧ z.2 = g x) xs (ys.zip (xs.map g)) := by
  induction h with
  | nil => exact .nil
  | cons h _ ih => exact .cons ⟨h, rfl⟩ ih

/-- A computation over a list whose members are known by those of another. -/
theorem eq_map_of_mapM {f : β → Except Error γ}
    {zs : List γ} (h : List.Forall₂ R xs ys)
    (hzs : ys.mapM f = .ok zs) (hf : ∀ x ∈ xs, ∀ y z, R x y → f y = .ok z → z = g x) :
    zs = xs.map g := by
  induction h generalizing zs with
  | nil =>
    cases hzs
    rfl
  | cons h _ ih =>
    obtain ⟨z, zs, hz, hrest, rfl⟩ := mapM_cons_eq_ok hzs
    rw [forall_mem_cons] at hf
    rw [map_cons, hf.1 _ _ h hz, ih hrest hf.2]

/-- An instance of a linked draft has the functions of the draft under their final numbers. -/
theorem link_embeds (hfits : d.Fits) (hlink : d.link = .ok m)
    (hinst : instantiate engine host m = .ok inst) :
    Embeds d.number (d.program inst.program.types) inst.program := by
  obtain ⟨-, rfl⟩ := link_eq_ok.1 hlink
  obtain ⟨funcs, imports, _, _, hbodies, hhosts, -, -, rfl⟩ := instantiate_eq_ok hinst
  have himports : imports = (ofKind true d.funcs).map fun e => e.callee.renumber d.number :=
    eq_map_of_mapM (forall₂_imports hfits.funcs_le) hhosts fun e he i c hi =>
      resolveImport_entry d.number (by simpa using (mem_filter.1 he).2) hi.1
  have hfuncs : funcs = (ofKind false d.funcs).map fun e => e.callee.renumber d.number :=
    eq_map_of_mapM (forall₂_zip_map (forall₂_funcs hfits.funcs_le)) hbodies
      fun e he (k, f) c ⟨hk, hf⟩ hc => resolveBody_entry he hfits hk (hf ▸ hc)
  refine ⟨rfl, fun f => ?_⟩
  rw [getElem?_toArray, himports, hfuncs, ← map_append, getElem?_map,
    ← Draft.ordered, Draft.getElem?_number hfits.funcs_le f]
  simp [Draft.program, Function.comp_def]

end MoveCodec.Assembly
