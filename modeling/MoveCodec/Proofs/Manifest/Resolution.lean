import MoveCodec.Manifest.Resolve
import MoveCodec.Proofs.Assembly.Numbering
import MoveCodec.Proofs.Types.Histories
import MoveCodec.Proofs.Wasm.Validity

/-!
# What resolving a manifest gives

A manifest is resolved exactly if its address and all its type expressions can be read, every
definition passes the checks of the registry, and no two definitions have one number. What comes out
is told by the definitions as they were read.
-/
namespace MoveCodec

open Assembly List

/-! ## The framework -/

namespace Framework

/-- The registry with the framework and nothing else. -/
def base : Registry := (register {}).2

theorem register_eq : register {} = (.ok (), base) := rfl

theorem enums_base : base.enums = [] := rfl

theorem nodup_base : (base.structs.map (·.id)).Nodup := by decide

end Framework

/-! ## Definitions entered into a registry -/

/-- A definition with the tag it is entitled to. -/
def StructDef.entered (d : StructDef) : StructDef :=
  { d with tag := NativeTag.reserved d.id.home d.name }

/-- A definition passes the checks that do not look at other definitions. -/
structure StructDef.Checked (d : StructDef) : Prop where
  bound : Registry.checkFields d.arity d.name d.fields = .ok ()
  topics : d.role = .event →
    0 ≤ d.indexed ∧ d.indexed ≤ Registry.maxIndexed ∧ d.indexed ≤ d.fields.length

structure EnumDef.Checked (d : EnumDef) : Prop where
  variants_ne : d.variants ≠ []
  bound : ∀ v ∈ d.variants,
    Registry.checkFields d.arity (d.name ++ "::" ++ v.name) v.fields = .ok ()

namespace Registry

variable (r : Registry)

/-- Enters definitions at the end. -/
def extend (ds : List StructDef) : Registry :=
  { r with structs := r.structs ++ ds.map StructDef.entered }

def extendEnums (ds : List EnumDef) : Registry := { r with enums := r.enums ++ ds }

/-- The numbers of the structs, and of others that are to be entered. -/
def ids (ds : List StructDef) : List DefId := r.structs.map (·.id) ++ ds.map (·.id)

def enumIds (ds : List EnumDef) : List DefId := r.enums.map (·.id) ++ ds.map (·.id)

theorem extend_nil : r.extend [] = r := by simp [extend]

theorem extend_cons (d : StructDef) (ds : List StructDef) :
    (r.extend [d]).extend ds = r.extend (d :: ds) := by
  simp [extend]

theorem ids_extend (ds ds' : List StructDef) : (r.extend ds).ids ds' = r.ids (ds ++ ds') := by
  simp [extend, ids, StructDef.entered]

theorem ids_extendEnums (ds : List EnumDef) (ds' : List StructDef) :
    (r.extendEnums ds).ids ds' = r.ids ds' := rfl

theorem extendEnums_nil : r.extendEnums [] = r := by simp [extendEnums]

theorem extendEnums_cons (d : EnumDef) (ds : List EnumDef) :
    (r.extendEnums [d]).extendEnums ds = r.extendEnums (d :: ds) := by
  simp [extendEnums]

theorem enumIds_extendEnums (ds ds' : List EnumDef) :
    (r.extendEnums ds).enumIds ds' = r.enumIds (ds ++ ds') := by
  simp [extendEnums, enumIds]

variable {r} {r' : Registry}

theorem addStruct_iff {d d' : StructDef} (hr : r.frozen = false) :
    r.addStruct d = .ok (d', r') ↔
      d.Checked ∧ d.id ∉ r.structs.map (·.id) ∧ d' = d.entered ∧ r' = r.extend [d] := by
  have hfresh : r.findStruct? d.id = none ↔ d.id ∉ r.structs.map (·.id) := by simp [findStruct?]
  rw [addStruct_eq_ok, ← hfresh]
  constructor
  · rintro ⟨h, rfl, rfl⟩
    exact ⟨⟨h.bound, h.topics⟩, h.fresh, rfl, rfl⟩
  · rintro ⟨h, hnew, rfl, rfl⟩
    exact ⟨⟨hr, hnew, .inl rfl, h.bound, h.topics⟩, rfl, rfl⟩

theorem addEnum_iff {d : EnumDef} (hr : r.frozen = false) :
    r.addEnum d = .ok r' ↔
      d.Checked ∧ d.id ∉ r.enums.map (·.id) ∧ r' = r.extendEnums [d] := by
  have hfresh : r.findEnum? d.id = none ↔ d.id ∉ r.enums.map (·.id) := by simp [findEnum?]
  rw [addEnum_eq_ok, ← hfresh]
  constructor
  · rintro ⟨h, rfl⟩
    exact ⟨⟨h.variants_ne, h.bound⟩, h.fresh, rfl⟩
  · rintro ⟨h, hnew, rfl⟩
    exact ⟨⟨hr, hnew, h.variants_ne, h.bound⟩, rfl⟩

theorem nodup_ids_singleton {d : StructDef} (hids : (r.ids []).Nodup) :
    (r.ids [d]).Nodup ↔ d.id ∉ r.structs.map (·.id) := by
  simp only [ids, map_nil, append_nil, map_cons] at hids ⊢
  rw [nodup_append_comm, singleton_append, nodup_cons, and_iff_left hids]

theorem nodup_enumIds_singleton {d : EnumDef} (hids : (r.enumIds []).Nodup) :
    (r.enumIds [d]).Nodup ↔ d.id ∉ r.enums.map (·.id) := by
  simp only [enumIds, map_nil, append_nil, map_cons] at hids ⊢
  rw [nodup_append_comm, singleton_append, nodup_cons, and_iff_left hids]

end Registry

namespace Manifest

variable {r r' : Registry}

theorem addStructs_eq_ok {ds ds' : List StructDef} (hr : r.frozen = false)
    (hids : (r.ids []).Nodup) :
    addStructs r ds = .ok (ds', r') ↔ (∀ d ∈ ds, d.Checked) ∧ (r.ids ds).Nodup ∧
      ds' = ds.map StructDef.entered ∧ r' = r.extend ds := by
  induction ds generalizing r ds' with
  | nil =>
    rw [addStructs, r.extend_nil, and_iff_right nofun, and_iff_right hids, Except.ok.injEq,
      Prod.mk.injEq, map_nil, eq_comm, @eq_comm _ r']
  | cons d ds ih =>
    have hsplit : (r.extend [d]).ids ds = r.ids (d :: ds) := r.ids_extend [d] ds
    have hrest (h : d.id ∉ r.structs.map (·.id)) : ((r.extend [d]).ids []).Nodup := by
      rwa [r.ids_extend, append_nil, Registry.nodup_ids_singleton hids]
    rw [addStructs]
    constructor
    · intro h
      obtain ⟨⟨d', r₁⟩, hd, h⟩ := bind_eq_ok h
      obtain ⟨⟨ds₁, r₂⟩, hds, h⟩ := bind_eq_ok h
      cases h
      obtain ⟨hchecked, hfresh, rfl, rfl⟩ := (Registry.addStruct_iff hr).1 hd
      obtain ⟨hall, hnodup, rfl, rfl⟩ := (ih (r := r.extend [d]) hr (hrest hfresh)).1 hds
      exact ⟨forall_mem_cons.2 ⟨hchecked, hall⟩, hsplit ▸ hnodup, rfl, r.extend_cons d ds⟩
    · rintro ⟨hall, hnodup, rfl, rfl⟩
      obtain ⟨hd, hds⟩ := forall_mem_cons.1 hall
      have hfresh : d.id ∉ r.structs.map (·.id) := fun h =>
        disjoint_of_nodup_append hnodup h (mem_cons_self ..)
      have hadd : r.addStruct d = .ok (d.entered, r.extend [d]) :=
        (Registry.addStruct_iff hr).2 ⟨hd, hfresh, rfl, rfl⟩
      have hothers := (ih (r := r.extend [d]) hr (hrest hfresh)).2
        ⟨hds, hsplit ▸ hnodup, rfl, (r.extend_cons d ds).symm⟩
      rw [hadd]
      change (addStructs (r.extend [d]) ds >>= fun x => .ok (d.entered :: x.1, x.2)) = _
      rw [hothers]
      rfl

theorem addEnums_eq_ok {ds : List EnumDef} (hr : r.frozen = false) (hids : (r.enumIds []).Nodup) :
    ds.foldlM Registry.addEnum r = .ok r' ↔ (∀ d ∈ ds, d.Checked) ∧ (r.enumIds ds).Nodup ∧
      r' = r.extendEnums ds := by
  induction ds generalizing r with
  | nil =>
    rw [foldlM_nil, r.extendEnums_nil, and_iff_right nofun, and_iff_right hids, eq_comm]
    exact ⟨fun h => (Except.ok.inj h.symm).symm, fun h => congrArg Except.ok h⟩
  | cons d ds ih =>
    have hsplit : (r.extendEnums [d]).enumIds ds = r.enumIds (d :: ds) :=
      r.enumIds_extendEnums [d] ds
    have hrest (h : d.id ∉ r.enums.map (·.id)) : ((r.extendEnums [d]).enumIds []).Nodup := by
      rwa [r.enumIds_extendEnums, append_nil, Registry.nodup_enumIds_singleton hids]
    rw [foldlM_cons]
    constructor
    · intro h
      obtain ⟨r₁, hd, h⟩ := bind_eq_ok h
      obtain ⟨hchecked, hfresh, rfl⟩ := (Registry.addEnum_iff hr).1 hd
      obtain ⟨hall, hnodup, rfl⟩ := (ih (r := r.extendEnums [d]) hr (hrest hfresh)).1 h
      exact ⟨forall_mem_cons.2 ⟨hchecked, hall⟩, hsplit ▸ hnodup, r.extendEnums_cons d ds⟩
    · rintro ⟨hall, hnodup, rfl⟩
      obtain ⟨hd, hds⟩ := forall_mem_cons.1 hall
      have hfresh : d.id ∉ r.enums.map (·.id) := fun h =>
        disjoint_of_nodup_append hnodup h (mem_cons_self ..)
      have hadd : r.addEnum d = .ok (r.extendEnums [d]) :=
        (Registry.addEnum_iff hr).2 ⟨hd, hfresh, rfl⟩
      rw [hadd]
      exact (ih (r := r.extendEnums [d]) hr (hrest hfresh)).2
        ⟨hds, hsplit ▸ hnodup, (r.extendEnums_cons d ds).symm⟩

/-! ## Resolved manifests -/

/-- The definitions of a package as they were read, without tags. -/
structure Definitions where
  structs : List StructDef
  enums : List EnumDef
  errors : List StructDef
  events : List StructDef

namespace Definitions

variable (ds : Definitions)

def records : List StructDef := ds.structs ++ ds.errors ++ ds.events

def registry : Registry := (Framework.base.extend ds.records).extendEnums ds.enums

/-- The definitions can stand in one registry with the framework. -/
structure Consistent : Prop where
  records : ∀ d ∈ ds.records, d.Checked
  enums : ∀ d ∈ ds.enums, d.Checked
  nodup_records : (Framework.base.ids ds.records).Nodup
  nodup_enums : (ds.enums.map (·.id)).Nodup

def package (home : ModuleId) (functions : List PublicFunction) : Package where
  registry := ds.registry.freeze
  home
  structs := ds.structs.map StructDef.entered
  enums := ds.enums
  errors := ds.errors.map StructDef.entered
  events := ds.events.map StructDef.entered
  functions

end Definitions

/-- A manifest that is read passes all checks. -/
theorem check_of_parse {source : String} {m : Manifest} (h : parse source = .ok m) :
    m.check = .ok () := by
  unfold parse at h
  split at h
  · dsimp only at h
    split_ifs at h
    · obtain ⟨_, hcheck, h⟩ := bind_eq_ok h
      cases h
      exact hcheck
    · cases h
  · cases h

/-- What the checks of a manifest establish: memory can hold its pages, and names are taken section
by section. -/
theorem check_eq_ok {m : Manifest} (h : m.check = .ok ()) :
    (m.build.maxPages ≠ 0 → m.build.pages ≤ m.build.maxPages) ∧
      ∃ structs enums errors events, m.structs.foldlM checkStruct [] = .ok structs ∧
        m.enums.foldlM checkEnum structs = .ok enums ∧
        m.errors.foldlM checkError enums = .ok errors ∧
        m.events.foldlM checkEvent errors = .ok events := by
  unfold check at h
  dsimp only at h
  split at h
  · cases h
  split at h
  · cases h
  · rename_i hpages
    obtain ⟨structs, hstructs, h⟩ := bind_eq_ok h
    obtain ⟨enums, henums, h⟩ := bind_eq_ok h
    obtain ⟨errors, herrors, h⟩ := bind_eq_ok h
    obtain ⟨events, hevents, -⟩ := bind_eq_ok h
    refine ⟨fun hmax => ?_, structs, enums, errors, events, hstructs, henums, herrors, hevents⟩
    exact UInt32.not_lt.1 fun hless => hpages ⟨hmax, hless⟩

variable (m : Manifest)

/-- Where the type names of a package are looked up. -/
def scope (home : ModuleId) (registry : Registry) : Scope where
  registry
  home
  locals := m.locals (Framework.base.freeIndex home)

structure Reads (s : Scope) (ds : Definitions) : Prop where
  structs : m.structs.mapM (s.structDef · .plain) = .ok ds.structs
  enums : m.enums.mapM s.enumDef = .ok ds.enums
  errors : m.errors.mapM (fun d => s.structDef { d with arity := 0 } .error) = .ok ds.errors
  events : m.events.mapM (fun d =>
    s.structDef { name := d.name, fields := d.fields } .event d.indexed) = .ok ds.events

theorem registered_eq_ok (ds : Definitions) {structs errors events : List StructDef}
    {r : Registry} :
    (∃ r₁ r₂ r₃, addStructs Framework.base ds.structs = .ok (structs, r₁) ∧
      ds.enums.foldlM Registry.addEnum r₁ = .ok r₂ ∧ addStructs r₂ ds.errors = .ok (errors, r₃) ∧
      addStructs r₃ ds.events = .ok (events, r)) ↔
    ds.Consistent ∧ structs = ds.structs.map StructDef.entered ∧
      errors = ds.errors.map StructDef.entered ∧ events = ds.events.map StructDef.entered ∧
      r = ds.registry := by
  let b := Framework.base
  have hbase : (b.ids []).Nodup := by simpa [Registry.ids] using Framework.nodup_base
  have henums : (((b.extend ds.structs)).enumIds []).Nodup := nodup_nil
  -- The numbers that are taken before the errors, and before the events.
  have hids₁ : ((b.extend ds.structs).extendEnums ds.enums).ids ds.errors =
      b.ids (ds.structs ++ ds.errors) := b.ids_extend _ _
  have hids₂ : (((b.extend ds.structs).extendEnums ds.enums).extend ds.errors).ids ds.events =
      b.ids ds.records := by
    rw [Registry.ids_extend, Registry.ids_extendEnums, Registry.ids_extend, ← append_assoc]
    rfl
  have hregistry : (((b.extend ds.structs).extendEnums ds.enums).extend ds.errors).extend
      ds.events = ds.registry := by
    simp [Registry.extend, Registry.extendEnums, Definitions.registry, Definitions.records, b]
  have hfirst {xs ys : List StructDef} (h : (b.ids (xs ++ ys)).Nodup) : (b.ids xs).Nodup := by
    refine h.sublist ((List.Sublist.refl _).append ?_)
    rw [map_append]
    exact sublist_append_left _ _
  have htaken₁ (h : (b.ids ds.structs).Nodup) :
      (((b.extend ds.structs).extendEnums ds.enums).ids []).Nodup := by
    rwa [Registry.ids_extendEnums, Registry.ids_extend, append_nil]
  have htaken₂ (h : (b.ids (ds.structs ++ ds.errors)).Nodup) :
      ((((b.extend ds.structs).extendEnums ds.enums).extend ds.errors).ids []).Nodup := by
    rwa [Registry.ids_extend, append_nil, hids₁]
  constructor
  · rintro ⟨r₁, r₂, r₃, hstructs, henum, herrors, hevents⟩
    obtain ⟨hcs, hns, rfl, rfl⟩ := (addStructs_eq_ok rfl hbase).1 hstructs
    obtain ⟨hce, hne, rfl⟩ := (addEnums_eq_ok rfl henums).1 henum
    obtain ⟨hcr, hnr, rfl, rfl⟩ := (addStructs_eq_ok rfl (htaken₁ hns)).1 herrors
    rw [hids₁] at hnr
    obtain ⟨hcv, hnv, rfl, rfl⟩ := (addStructs_eq_ok rfl (htaken₂ hnr)).1 hevents
    rw [hids₂] at hnv
    refine ⟨⟨fun d hd => ?_, hce, hnv, hne⟩, rfl, rfl, rfl, hregistry⟩
    rw [Definitions.records, mem_append, mem_append] at hd
    rcases hd with (hd | hd) | hd
    · exact hcs d hd
    · exact hcr d hd
    · exact hcv d hd
  · rintro ⟨hds, rfl, rfl, rfl, rfl⟩
    have hnv := hds.nodup_records
    have hnr : (b.ids (ds.structs ++ ds.errors)).Nodup := hfirst hnv
    have hns : (b.ids ds.structs).Nodup := hfirst hnr
    have hmem {d : StructDef} (hd : d ∈ ds.structs ∨ d ∈ ds.errors ∨ d ∈ ds.events) : d.Checked :=
      hds.records d (by simpa [Definitions.records] using hd)
    refine ⟨_, _, _, (addStructs_eq_ok rfl hbase).2 ⟨fun d hd => hmem (.inl hd), hns, rfl, rfl⟩,
      (addEnums_eq_ok rfl henums).2 ⟨hds.enums, hds.nodup_enums, rfl⟩,
      (addStructs_eq_ok rfl (htaken₁ hns)).2 ⟨fun d hd => hmem (.inr (.inl hd)), ?_, rfl, rfl⟩,
      (addStructs_eq_ok rfl (htaken₂ hnr)).2
        ⟨fun d hd => hmem (.inr (.inr hd)), ?_, rfl, hregistry.symm⟩⟩
    · rwa [hids₁]
    · rwa [hids₂]

/-- A manifest is resolved if and only if its address and its types can be read and its definitions
are consistent. -/
theorem resolve_eq_ok {m : Manifest} {p : Package} :
    m.resolve = .ok p ↔ ∃ address ds functions,
      AccountAddress.parse m.package.address = .ok address ∧
      m.Reads (m.scope ⟨address, m.package.module⟩ Framework.base) ds ∧ ds.Consistent ∧
      m.functions.mapM (m.scope ⟨address, m.package.module⟩ ds.registry).function = .ok functions ∧
      p = ds.package ⟨address, m.package.module⟩ functions := by
  constructor
  · intro h
    obtain ⟨address, haddress, h⟩ := bind_eq_ok h
    rw [Framework.register_eq] at h
    obtain ⟨-, -, h⟩ := bind_eq_ok h
    obtain ⟨structs, hstructs, h⟩ := bind_eq_ok h
    obtain ⟨enums, henums, h⟩ := bind_eq_ok h
    obtain ⟨errors, herrors, h⟩ := bind_eq_ok h
    obtain ⟨events, hevents, h⟩ := bind_eq_ok h
    obtain ⟨⟨structs', r₁⟩, hadd₁, h⟩ := bind_eq_ok h
    obtain ⟨r₂, hadd₂, h⟩ := bind_eq_ok h
    obtain ⟨⟨errors', r₃⟩, hadd₃, h⟩ := bind_eq_ok h
    obtain ⟨⟨events', r₄⟩, hadd₄, h⟩ := bind_eq_ok h
    obtain ⟨functions, hfunctions, h⟩ := bind_eq_ok h
    obtain ⟨hconsistent, rfl, rfl, rfl, rfl⟩ :=
      (registered_eq_ok ⟨structs, enums, errors, events⟩).1 ⟨r₁, r₂, r₃, hadd₁, hadd₂, hadd₃, hadd₄⟩
    refine ⟨address, ⟨structs, enums, errors, events⟩, functions, Shape.within_eq_ok haddress,
      ⟨hstructs, henums, herrors, hevents⟩, hconsistent, hfunctions, ?_⟩
    cases h
    rfl
  · rintro ⟨address, ds, functions, haddress, hreads, hconsistent, hfunctions, rfl⟩
    obtain ⟨r₁, r₂, r₃, hadd₁, hadd₂, hadd₃, hadd₄⟩ := (registered_eq_ok ds).2
      ⟨hconsistent, rfl, rfl, rfl, rfl⟩
    obtain ⟨hstructs, henums, herrors, hevents⟩ := hreads
    simp only [scope] at hstructs henums herrors hevents hfunctions
    simp only [resolve, within, Except.mapError, haddress, Framework.register_eq, bind, Except.bind,
      hstructs, henums, herrors, hevents, hadd₁, hadd₂, hadd₃, hadd₄, hfunctions]
    rfl

end Manifest

end MoveCodec
