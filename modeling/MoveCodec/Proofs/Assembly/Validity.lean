import MoveCodec.Proofs.Codec.TypedGenerators
import MoveCodec.Proofs.Wasm.Validity

/-!
# Linked modules are valid

If the functions of a draft are typed under their logical numbers, then the linked module is valid
and its functions stop.
-/
namespace MoveCodec.Assembly

open Wasm Machine List

/-- A draft of generated code that is ready to be linked: its functions are typed, and they and
their locals can be numbered. -/
structure Draft.Ready (d : Draft) (types : Array FuncType) : Prop where
  fits : d.Fits
  typed : ∀ e ∈ d.funcs, e.WellTyped (d.program types)
  locals_le : ∀ name t locals body finished, Entry.defined name t locals body finished ∈ d.funcs →
    t.params.length + locals.length ≤ UInt32.size
  globals_eq : d.globals = Prelude.globals
  memory_isSome : d.memory.isSome = true

theorem Entry.WellTyped.type_callee {e : Entry} {p : Program} (h : e.WellTyped p) :
    e.callee.type = e.type := by
  cases e with
  | imported home name t =>
    obtain ⟨f, hf, rfl⟩ := h
    simp [Entry.callee, hf, Callee.type, Entry.type]
  | defined => rfl

theorem Entry.WellTyped.funcStops {e : Entry} {p : Program} (h : e.WellTyped p) {f : FuncId}
    (hf : p.funcs[f.toNat]? = some e.callee) : FuncStops p f := by
  cases e with
  | imported => exact funcStops_host hf
  | defined name t locals body finished =>
    obtain ⟨code, hcode, hbody⟩ := h
    rw [Entry.callee, hcode, Option.getD_some] at hf
    exact funcStops_code hf hbody.bounded

section

variable {d : Draft} {m : Module (List Instr)} {f : UInt32}

theorem length_link (hsize : d.funcs.length ≤ UInt32.size) (hlink : d.link = .ok m) :
    m.imports.length + m.funcs.length = d.funcs.length := by
  obtain ⟨-, rfl⟩ := link_eq_ok.1 hlink
  rw [← d.length_ordered, (forall₂_ordered hsize).length_eq, length_append, length_map]

/-- Functions keep their types when they get their final numbers. -/
theorem Draft.Ready.renumbers (hd : d.Ready m.types.toArray) (hlink : d.link = .ok m)
    (division : Bool) :
    (d.program m.types.toArray).surroundings.Renumbers d.number (m.surroundings division) := by
  obtain ⟨-, rfl⟩ := link_eq_ok.1 hlink
  refine ⟨rfl, fun f t hf => ?_, ?_, ?_, fun h => absurd h Bool.false_ne_true⟩
  · obtain ⟨c, hc, rfl⟩ := Option.map_eq_some_iff.1 hf
    rw [Draft.program, getElem?_toArray, getElem?_map, Option.map_eq_some_iff] at hc
    obtain ⟨e, he, rfl⟩ := hc
    rw [(hd.typed e (mem_of_getElem? he)).type_callee]
    exact typeOf?_linked hd.fits.funcs_le he
  · rw [Module.surroundings, Draft.linked, hd.globals_eq]
    rfl
  · obtain ⟨limits, hlimits⟩ := Option.isSome_iff_exists.1 hd.memory_isSome
    rw [Module.surroundings, Draft.linked, hlimits]
    rfl

theorem Draft.Ready.valid (hd : d.Ready m.types.toArray) (hlink : d.link = .ok m)
    (division : Bool) : m.ValidWith division := by
  have hrenumbers := hd.renumbers hlink division
  have hlength := length_link hd.fits.funcs_le hlink
  obtain ⟨⟨-, hexports⟩, rfl⟩ := link_eq_ok.1 hlink
  refine ⟨fun i hi => ?_, ?_, ?_, fun x hx hkind => ?_⟩
  · obtain ⟨e, -, -, htype⟩ := exists_mem_of_forall₂ (forall₂_imports hd.fits.funcs_le) hi
    exact (List.getElem?_eq_some_iff.1 htype).1
  · have htypes := (forall₂_funcs hd.fits.funcs_le).flip
    rw [forall₂_iff_zip] at htypes
    refine forall₂_map_right_iff.2 (forall₂_iff_zip.2 ⟨htypes.1, fun {k e} hin => ?_⟩)
    obtain ⟨hmem, hdefined⟩ := mem_filter.1 (of_mem_zip hin).2
    cases e with
    | imported => cases hdefined
    | defined name t locals body finished =>
      obtain ⟨code, hnest, hbody⟩ := hd.typed _ hmem
      have hlocals : (Entry.func d.number (.defined name t locals body finished)).localTypes =
          locals := flatMap_localRuns (hd.fits.locals_lt _ _ _ _ _ hmem)
      refine ⟨t, Code.renumber d.number code, htypes.2 hin, ?_, ?_⟩
      · exact (Code.nest?_renumber _ _).trans (by rw [hnest, Option.map_some])
      · rw [hlocals]
        exact (hbody.typed (hd.locals_le _ _ _ _ _ hmem)).renumber hrenumbers
  · change ∀ g ∈ d.globals, g.init.type = g.type
    rw [hd.globals_eq]
    decide
  · obtain ⟨y, hy, rfl⟩ := mem_map.1 hx
    rw [Export.kind_renumber] at hkind
    have hin := hexports y hy hkind
    have hlt := finalIndex_lt (d.length_kinds ▸ hin)
    rw [hlength, Export.renumber, if_pos hkind, Draft.toNat_number hd.fits.funcs_le hin]
    exact d.length_kinds ▸ hlt

section

variable {e : Engine} {host : Host} {inst : Instance}

section

variable (hd : d.Ready m.types.toArray)

include hd

theorem Draft.Ready.embeds (hlink : d.link = .ok m)
    (hinst : instantiate e host m = .ok inst) :
    Embeds d.number (d.program m.types.toArray) inst.program := by
  have htypes : inst.program.types = m.types.toArray := by
    obtain ⟨_, _, _, _, -, -, -, -, rfl⟩ := instantiate_eq_ok hinst
    rfl
  rw [← htypes]
  exact link_embeds hd.fits hlink hinst

/-- Every function of an instance comes from an entry of the draft. -/
theorem Draft.Ready.exists_entry (hlink : d.link = .ok m)
    (hf : f.toNat < m.imports.length + m.funcs.length) : ∃ id, d.number id = f ∧ ∃ entry ∈ d.funcs,
      (d.program m.types.toArray).funcs[id.toNat]? = some entry.callee := by
  rw [length_link hd.fits.funcs_le hlink, ← d.length_kinds] at hf
  -- Final numbers are a permutation, so the function has a logical number.
  obtain ⟨i, hi, hif⟩ := (finalIndex_bijOn d.kinds).surjOn hf
  rw [Set.mem_Iio, d.length_kinds] at hi
  have hid : (UInt32.ofNat i).toNat = i :=
    UInt32.toNat_ofNat_of_lt' (hi.trans_le hd.fits.funcs_le)
  refine ⟨UInt32.ofNat i, ?_, _, getElem_mem hi, ?_⟩
  · rw [Draft.number_eq (by rwa [hid]), hid, hif, UInt32.ofNat_toNat]
  · rw [hid, Draft.program, getElem?_toArray, getElem?_map, getElem?_eq_getElem hi,
      Option.map_some]

/-- Every function of an instance stops. -/
theorem Draft.Ready.funcStops (hlink : d.link = .ok m) (hinst : instantiate e host m = .ok inst)
    (hf : f.toNat < m.imports.length + m.funcs.length) : FuncStops inst.program f := by
  obtain ⟨id, rfl, entry, hentry, hcallee⟩ := hd.exists_entry hlink hf
  exact ((hd.typed entry hentry).funcStops hcallee).renumber (hd.embeds hlink hinst)

theorem Draft.Ready.bounded (hlink : d.link = .ok m) (hinst : instantiate e host m = .ok inst)
    {t : FuncType} {locals : List ValType} {body : Code}
    (hf : f.toNat < m.imports.length + m.funcs.length)
    (hbody : inst.program.funcs[f.toNat]? = some (.code t locals body)) :
    Bounded inst.program body := by
  obtain ⟨id, rfl, entry, hentry, hcallee⟩ := hd.exists_entry hlink hf
  have hembeds := hd.embeds hlink hinst
  rw [hembeds.funcs_eq, hcallee, Option.map_some] at hbody
  have htyped := hd.typed entry hentry
  cases entry with
  | imported => cases hbody
  | defined name t' locals' instrs finished =>
    obtain ⟨code, hcode, htyped⟩ := htyped
    rw [Entry.callee, hcode, Option.getD_some] at hbody
    cases hbody
    exact htyped.bounded.renumber hembeds

end

end

end

end MoveCodec.Assembly
