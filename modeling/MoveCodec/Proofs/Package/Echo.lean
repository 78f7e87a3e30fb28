import MoveCodec.Proofs.Package.Generation

/-!
# Re-encoders of arguments

All encoders accept the same types. So the arguments of a function that are read by value can also
be encoded again, and asking for the functions that do so never makes a compilation fail.
-/
namespace MoveCodec

open Wasm Assembly Machine Prelude Codec List

variable {a b : Assembly} {c : Context} {f : FuncId} {module name : String} {o : Options}
  {ts : List MoveType} {x : String × Generate FuncId}

/-! ## Arguments that are read by value -/

theorem Codec.Storable.isObject {r : Registry} {id : DefId} {args : List MoveType}
    (h : Storable r (.struct id args)) : ∃ d, r.structOf id args = .ok d ∧ d.isObject = true := by
  obtain ⟨_, _, d, _, _, heq, hd, -⟩ := h
  cases heq
  rw [Registry.requireObject] at hd
  obtain ⟨d', hstruct, hd⟩ := bind_eq_ok hd
  refine ⟨d', hstruct, ?_⟩
  split at hd
  · cases hd
  · rename_i hkey
    simpa using hkey

namespace Package

variable {p : Package} {config : CompileOptions}

/-- Parameters that are read by value can be packed. -/
theorem encodable_of_hasEcho (hecho : p.hasEcho ts = true)
    (hts : ∀ t ∈ ts, Acceptable p.registry t) : ∀ t ∈ ts, Encodable p.registry t := by
  intro t ht
  have hvalue := all_eq_true.1 hecho t ht
  obtain ⟨u, boxed, hunbox, hsource⟩ := hts t ht
  obtain ⟨hderef, hpack⟩ := unbox_eq_ok hunbox
  simp only [hderef, Registry.isInjected, Bool.and_eq_true, Bool.not_eq_true', Bool.or_eq_false_iff,
    decide_eq_false_iff_not] at hvalue
  obtain ⟨⟨hsigner, hcontext⟩, hplain⟩ := hvalue
  rw [Obtainable, or_iff_right hsigner, or_iff_right hcontext] at hsource
  split_ifs at hsource with hobject
  · obtain ⟨id, args, rfl⟩ := exists_struct_of_isObject hobject
    obtain ⟨d, hd, hkey⟩ := hsource.isObject
    simp only [hd, hkey] at hplain
    cases hplain
  · exact ⟨u, boxed, hpack .pack, hsource.1⟩

/-! ## The names of re-encoders -/

/-- No other export has the name of a re-encoder. -/
theorem ne_echo {start function : String} (h : ¬ "abi_echo_".toList <+: start.toList)
    (h' : ¬ start.toList <+: "abi_echo_".toList) : start ++ name ≠ Export.echo function := by
  intro heq
  have hlist := congrArg String.toList heq
  rw [Export.echo, String.toList_append, String.toList_append] at hlist
  have hecho : "abi_echo_".toList <+: start.toList ++ name.toList := by
    rw [hlist]
    exact prefix_append ..
  rcases prefix_or_prefix_of_prefix hecho (prefix_append ..) with hpre | hpre
  · exact h hpre
  · exact h' hpre

/-- The re-encoder of a function, where there is one. -/
def echoOf (p : Package) (c : Context) (f : PublicFunction) : List (String × Generate FuncId) :=
  if p.hasEcho f.params then [(Export.echo f.name, packValues c f.params)] else []

theorem mem_echoOf {f : PublicFunction} :
    x ∈ p.echoOf c f ↔
      p.hasEcho f.params = true ∧ x = (Export.echo f.name, packValues c f.params) := by
  rw [echoOf]
  split <;> simp [*]

/-- The re-encoders of a package. -/
def echoes (p : Package) (c : Context) : List (String × Generate FuncId) :=
  p.functions.flatMap (p.echoOf c)

/-- Re-encoders come in addition to the other exports. -/
theorem exports_echo_perm (p : Package) (config : CompileOptions) :
    (p.exports { config with echo := true }).Perm
      (p.exports { config with echo := false } ++ p.echoes ⟨p.registry, config.options⟩) := by
  simp only [exports, Bool.true_and, Bool.false_and, Bool.false_eq_true, if_false,
    append_nil, append_assoc]
  refine ((flatMap_append_perm ..).symm.append_right _).trans ?_
  rw [append_assoc]
  refine List.Perm.append_left _ (perm_append_comm.trans ?_)
  rw [append_assoc, append_assoc]
  rfl

theorem ne_echo_of_mem_exports
    (hx : x ∈ p.exports { config with echo := false }) (function : String) :
    x.1 ≠ Export.echo function := by
  simp only [exports, Bool.false_and, Bool.false_eq_true, if_false, append_nil,
    mem_append, mem_flatMap, mem_map, mem_cons, not_mem_nil,
    or_false] at hx
  obtain ((⟨f, -, rfl | rfl⟩ | ⟨d, -, rfl | rfl⟩) | ⟨d, -, rfl⟩) | hx := hx
  iterate 5 exact ne_echo (by decide) (by decide)
  split at hx
  · simp only [mem_flatMap, mem_cons, not_mem_nil, or_false] at hx
    obtain ⟨d, -, rfl | rfl | rfl | rfl⟩ := hx
    iterate 4 exact ne_echo (by decide) (by decide)
  · cases hx

theorem ne_echo_of_mem_start
    (h : name ∈ (start module o).draft.exportNames) (function : String) :
    name ≠ Export.echo function := by
  have hname : name = "memory" ∨ name = "allocate" := by
    simp only [start, Draft.exportNames, map_cons, mem_cons] at h
    refine h.imp_right fun h => ?_
    split at h
    · simpa using h
    · cases h
  rw [← String.append_empty (s := name)]
  rcases hname with rfl | rfl
  · exact ne_echo (by decide) (by decide)
  · exact ne_echo (by decide) (by decide)

/-- Functions with different decoders have different names. -/
theorem pairwise_name_ne (h : ((p.exports { config with echo := false }).map (·.1)).Nodup) :
    p.functions.Pairwise fun f g => f.name ≠ g.name := by
  simp only [exports, map_append, append_assoc] at h
  have hfunctions := List.Nodup.of_append_left h
  rw [map_flatMap, nodup_flatMap] at hfunctions
  refine hfunctions.2.imp fun {f g} hdisjoint hname => ?_
  refine hdisjoint (a := Export.decode f.name) ?_ ?_
  · simp
  · simp [hname]

theorem nodup_echoes (h : p.functions.Pairwise fun f g => f.name ≠ g.name) :
    ((p.echoes c).map (·.1)).Nodup := by
  rw [echoes, map_flatMap, nodup_flatMap]
  refine ⟨fun f _ => ?_, h.imp fun {f g} hne name hf hg => ?_⟩
  · rw [echoOf]
    split
    · exact nodup_singleton _
    · exact nodup_nil
  · obtain ⟨x, hx, rfl⟩ := mem_map.1 hf
    obtain ⟨y, hy, heq⟩ := mem_map.1 hg
    obtain ⟨-, rfl⟩ := mem_echoOf.1 hx
    obtain ⟨-, rfl⟩ := mem_echoOf.1 hy
    exact hne ((String.append_right_inj _).1 heq).symm

theorem nodup_exports_echo
    (h : ((start module o).draft.exportNames ++
      (p.exports { config with echo := false }).map (·.1)).Nodup) :
    ((start module o).draft.exportNames ++
      (p.exports { config with echo := true }).map (·.1)).Nodup := by
  have hperm := ((exports_echo_perm p config).map (·.1)).append_left
    (start module o).draft.exportNames
  rw [hperm.nodup_iff, map_append, ← append_assoc]
  refine h.append (nodup_echoes (pairwise_name_ne h.of_append_right)) fun name hname hecho => ?_
  obtain ⟨x, hx, rfl⟩ := mem_map.1 hecho
  obtain ⟨f, -, hx⟩ := mem_flatMap.1 hx
  obtain ⟨-, rfl⟩ := mem_echoOf.1 hx
  rcases mem_append.1 hname with hstart | hexport
  · exact ne_echo_of_mem_start hstart f.name rfl
  · obtain ⟨y, hy, heq⟩ := mem_map.1 hexport
    exact ne_echo_of_mem_exports hy f.name heq

/-! ## Compilation with re-encoders -/

/-- A package is compiled if its functions are generated, numbered and linked, and it can be
described. -/
theorem exists_compile {entries : List Interface.Entry}
    {m : Module (List Instr)}
    (hrun : ((p.exports { config with options := config.options.withDefaults }).forM
        fun (name, gen) => Export.add name gen).run
          (start p.home.name config.options.withDefaults) = .ok () a)
    (hnumbers : a.draft.checkNumbers = .ok ()) (hlink : a.draft.link = .ok m)
    (hentries : p.interface = .ok entries) : ∃ artifact, p.compile config = .ok artifact := by
  unfold compile
  simp only [hrun, hnumbers, hlink, hentries]
  exact ⟨_, rfl⟩

theorem requests_subset_echo (p : Package) (config : CompileOptions) :
    p.requests { config with echo := false } ⊆ p.requests { config with echo := true } := by
  intro x hx
  simp only [requests, Bool.false_and, Bool.true_and, Bool.false_eq_true, if_false,
    append_nil, mem_append, mem_flatMap] at hx ⊢
  refine hx.imp_left (.imp_left (.imp_left (.imp_right ?_)))
  rintro ⟨f, hf, hx⟩
  exact ⟨f, hf, .inl hx⟩

section

variable {N : Set Request}

/-- Arguments that can be decoded by value can be encoded again. -/
theorem fulfilled_echo (hr : p.registry.Made)
    (hN : ∀ x ∈ routines, x ∈ N)
    (hunpack : ∀ x ∈ unpackValuesRequests p.registry ts, x ∈ N)
    (hpack : ∀ x ∈ packValuesRequests p.registry ts, x ∈ N) (hecho : p.hasEcho ts = true)
    (ha : Underway (judging ⟨p.registry, o⟩ N Set.univ) ∅ ∅ a)
    (hrun : (unpackValues ⟨p.registry, o⟩ ts).run a = .ok f b) :
    Fulfilled (judging ⟨p.registry, o⟩ N Set.univ) (packValues ⟨p.registry, o⟩ ts) := by
  have hV := decides_unpackValues (c := ⟨p.registry, o⟩) (J := Set.univ) hr hN hunpack
    (.inl trivial)
  have hW := decides_packValues (c := ⟨p.registry, o⟩) (J := Set.univ) hr hN hpack
    (.inl trivial)
  obtain ⟨⟨hconcrete, hts⟩, -⟩ := hV.of_run ha hrun
  exact hW.congr (iff_true_intro ⟨hconcrete, encodable_of_hasEcho hecho hts⟩)

/-- If the other exports were generated, re-encoders can be generated as well. -/
theorem fulfilled_exports_echo (hr : p.registry.Made) (config : CompileOptions)
    (hN : ∀ x ∈ p.requests { config with echo := true }, x ∈ N)
    (hoff : ∀ x ∈ p.exports { config with echo := false }, ∃ a f b,
      Underway (judging ⟨p.registry, config.options⟩ N Set.univ) ∅ ∅ a ∧ x.2.run a = .ok f b) :
    ∀ x ∈ p.exports { config with echo := true },
      Fulfilled (judging ⟨p.registry, config.options⟩ N Set.univ) x.2 := by
  intro x hx
  rcases mem_append.1 ((exports_echo_perm p config).mem_iff.1 hx) with hx | hx
  · obtain ⟨V, hV⟩ := decides_exports hr { config with echo := false }
      (fun y hy => hN y (requests_subset_echo p config hy)) x hx
    obtain ⟨a, f, b, ha, hrun⟩ := hoff x hx
    exact hV.congr (iff_true_intro (hV.of_run ha hrun).1)
  · obtain ⟨f, hf, hx⟩ := mem_flatMap.1 hx
    obtain ⟨hecho, rfl⟩ := mem_echoOf.1 hx
    obtain ⟨a, g, b, ha, hrun⟩ := hoff _ (mem_exports_of_function _ hf).1
    have hlisted : ∀ y, y ∈ unpackValuesRequests p.registry f.params ∨
        y ∈ packValuesRequests p.registry f.params → y ∈ N := fun y hy => hN y (by
      simp only [requests, Bool.true_and, mem_append, mem_flatMap]
      refine .inl (.inl (.inl (.inr ⟨f, hf, ?_⟩)))
      rw [if_pos hecho]
      exact hy.imp_left .inl)
    refine fulfilled_echo hr (fun y hy => hN y ?_) (fun y hy => hlisted y (.inl hy))
      (fun y hy => hlisted y (.inr hy)) hecho ha hrun
    simp [requests, hy]

end

/-- Re-encoders never make a compilation fail. -/
theorem exists_compile_echo (hr : p.registry.Made) (hsized : Sized p.registry)
    (hroom : (start p.home.name config.options.withDefaults).Accommodates
      (p.requests { config with echo := true }))
    {artifact : Artifact} (h : p.compile { config with echo := false } = .ok artifact) :
    ∃ artifact, p.compile { config with echo := true } = .ok artifact := by
  obtain ⟨b, hrun, -, -, hentries⟩ := compile_eq_ok h
  set full : CompileOptions := { config with options := config.options.withDefaults }
  set first := start p.home.name full.options
  have hS := hroom.distinct (c := ⟨p.registry, full.options⟩) (J := Set.univ) hsized
  set N := first.scope (p.requests { config with echo := true })
  have hN : ∀ x ∈ p.requests { full with echo := true }, x ∈ N := fun x hx => .inl hx
  have hstart := underway_start (c := ⟨p.registry, full.options⟩) (N := N) (J := Set.univ)
    p.home.name
  obtain ⟨-, hnodup, hoff⟩ := fulfilled_of_run hstart
    (decides_exports hr { full with echo := false } fun x hx =>
      hN x (requests_subset_echo p full hx)) hrun (nodup_exportNames_start ..)
  have hall := fulfilled_exports_echo hr full hN hoff
  obtain ⟨d, hrun', hready⟩ := exists_run_of_fulfilled hS hstart hall (nodup_exports_echo hnodup)
  have hexporting := (exporting_start p.home.name full.options).forM hstart
    (fun x hx => ⟨True, hall x hx⟩) (typed_exports p { full with echo := true }) hrun'
  obtain ⟨m, hlink⟩ := hexporting.exists_link hready hS
  exact exists_compile hrun' (hready.checkNumbers_eq hS) hlink hentries

/-! ## What encoders accept -/

/-- Parameters that are read by value and can be decoded can be encoded in any module. -/
theorem exists_packValues_of_unpackValues (hr : p.registry.Made) (hsized : Sized p.registry)
    {a' : Assembly} (ha : a.Tidy o.host)
    (hnew : a.cache.lookup? "unpack_values" ts = none)
    (hrun : (unpackValues ⟨p.registry, o⟩ ts).run a = .ok f b) (hecho : p.hasEcho ts = true)
    (ha' : a'.Tidy o.host)
    (hroom : a'.Accommodates (routines ++ packValuesRequests p.registry ts)) :
    ∃ f b, (packValues ⟨p.registry, o⟩ ts).run a' = .ok f b := by
  set c : Context := ⟨p.registry, o⟩
  have hunpack := decides_unpackValues (c := c) (N := Set.univ) (J := {⟨"unpack_values", ts⟩}) hr
    (fun _ _ => trivial) (fun _ _ => trivial) (.inl rfl)
  have hready : Underway (judging c Set.univ {⟨"unpack_values", ts⟩}) ∅ ∅ a := by
    refine ha.underway (fun _ _ => trivial) ?_ fun h => absurd h not_distinct_univ
    rintro _ rfl
    exact hnew
  obtain ⟨⟨hconcrete, hts⟩, -⟩ := hunpack.of_run hready hrun
  have hencodable := encodable_of_hasEcho hecho hts
  set xs := routines ++ packValuesRequests p.registry ts
  have hpack := decides_packValues (c := c) (N := a'.scope xs) (J := ∅) hr
    (fun x hx => .inl (mem_append_left _ hx)) (fun x hx => .inl (mem_append_right _ hx))
    (.inr hencodable)
  refine (hpack.exists_run_iff (hroom.distinct hsized) ?_).2 ⟨hconcrete, hencodable⟩
  exact ha'.underway (fun x hx => .inr hx) (fun x hx => absurd hx (Set.notMem_empty x))
    fun _ => hroom.small

/-- All encoders accept the same types. A type with a class has a size, a canonical name and a
packer. A type with a canonical name has a class, unless an object in it has no identifier. It has
an unpacker if it has a class and neither identifiers nor objects occur in it. Parameters that can
be unpacked and are read by value can be packed, so that re-encoders can always be asked for. -/
theorem accepts_same_types (p : Package) (config : CompileOptions) (hr : p.registry.Made)
    (hsized : Sized p.registry) :
    (∀ (t : MoveType) (a : Assembly), t.isConcrete = true → a.Tidy config.options.host →
      (∀ dynamic, p.registry.isDynamic t = .ok dynamic →
        (∃ size, p.registry.headSize t = .ok size) ∧
        (∃ name, p.registry.canonicalName t = .ok name) ∧
        (a.Accommodates (routines ++ packRequests p.registry t) →
          ∃ f b, (pack ⟨p.registry, config.options⟩ t).run a = .ok f b)) ∧
      (∀ name, p.registry.canonicalName t = .ok name →
        (∃ dynamic, p.registry.isDynamic t = .ok dynamic) ∨
          ∃ e, p.registry.isDynamic t = .error e ∧ e.kind? = some .missingIdentity) ∧
      (a.Accommodates (routines ++ unpackRequests p.registry t) →
        ((∃ f b, (unpack ⟨p.registry, config.options⟩ t).run a = .ok f b) ↔
          (∃ dynamic, p.registry.isDynamic t = .ok dynamic) ∧ p.registry.Plain t))) ∧
    (∀ (ts : List MoveType) (a a' b : Assembly) (f : FuncId), a.Tidy config.options.host →
      a.cache.lookup? "unpack_values" ts = none →
      (unpackValues ⟨p.registry, config.options⟩ ts).run a = .ok f b → p.hasEcho ts = true →
      a'.Tidy config.options.host →
      a'.Accommodates (routines ++ packValuesRequests p.registry ts) →
      ∃ f b, (packValues ⟨p.registry, config.options⟩ ts).run a' = .ok f b) ∧
    ((start p.home.name config.options.withDefaults).Accommodates
        (p.requests { config with echo := true }) →
      ∀ artifact, p.compile { config with echo := false } = .ok artifact →
        ∃ artifact, p.compile { config with echo := true } = .ok artifact) := by
  refine ⟨fun t a ht ha => ⟨fun dynamic hdynamic => ?_, fun name hname => ?_, fun hroom => ?_⟩,
    fun ts a a' b f ha hnew hrun hecho ha' hroom => ?_, fun hroom artifact h => ?_⟩
  · have hclassed : (p.registry.shape t).Classed p.registry := Shape.classed_iff.2 ⟨_, hdynamic⟩
    exact ⟨hclassed.exists_headSize, hclassed.exists_canonicalName, fun hroom =>
      (exists_pack_iff (c := ⟨p.registry, config.options⟩) hr hsized ha ht hroom).2 hclassed⟩
  · exact Shape.lacksIdentity hname
  · rw [exists_unpack_iff (c := ⟨p.registry, config.options⟩) hr hsized ha ht hroom, Decodable,
      Registry.isDynamic, ← Shape.classed_iff]
    refine and_congr_right fun hclassed => ?_
    rw [hclassed.checkDecodable_iff (Shape.follows_shape t), Shape.type_shape]
  · exact exists_packValues_of_unpackValues hr hsized ha hnew hrun hecho ha' hroom
  · exact exists_compile_echo hr hsized hroom h

theorem accommodates_ledger (o : Options) :
    (start "ledger" o).Accommodates (ledger.requests { echo := true }) :=
  accommodates_start (by decide +kernel) (by decide +kernel) (by decide +kernel)

theorem accepts_same_types_ledger :
    let c : Context := ⟨ledger.registry, {}⟩
    let t : MoveType := .vector transfer.type
    (∃ f b, (pack c t).run (start "ledger" {}) = .ok f b) ∧
    (∃ f b, (unpack c t).run (start "ledger" {}) = .ok f b) ∧
    (∃ f b, (packValues c [.ref false t, .bool]).run (start "ledger" {}) = .ok f b) ∧
    ∃ artifact, ledger.compile { echo := true } = .ok artifact := by
  intro c t
  obtain ⟨htypes, htuples, hcompile⟩ := accepts_same_types ledger {} made_ledger sized_ledger
  have htidy : (start "ledger" {}).Tidy "vm_hooks" := tidy_start ..
  have hdynamic : ledger.registry.isDynamic t = .ok true := by decide +kernel
  obtain ⟨hpack, -, hunpack⟩ := htypes t (start "ledger" {}) (by decide +kernel) htidy
  refine ⟨?_, ?_, ?_, ?_⟩
  · refine (hpack _ hdynamic).2.2 ((accommodates_ledger {}).of_subset ?_ ?_)
    · decide +kernel
    · decide +kernel
  · refine (hunpack ((accommodates_ledger {}).of_subset ?_ ?_)).2 ⟨⟨_, hdynamic⟩, ?_⟩
    · decide +kernel
    · decide +kernel
    · have hclassed : (ledger.registry.shape t).Classed ledger.registry :=
        Shape.classed_iff.2 ⟨_, hdynamic⟩
      have hplain := (hclassed.checkDecodable_iff (Shape.follows_shape t)).1 (by decide +kernel)
      rwa [Shape.type_shape] at hplain
  · cases hrun : (unpackValues c [.ref false t, .bool]).run (start "ledger" {}) with
    | error e b =>
      have hruns : ((unpackValues c [.ref false t, .bool]).run' (start "ledger" {})).isSome := by
        decide +kernel
      simp [EStateM.run', hrun] at hruns
    | ok f b =>
      refine htuples _ _ _ b f htidy rfl hrun (by decide +kernel) htidy
        ((accommodates_ledger {}).of_subset ?_ ?_)
      · decide +kernel
      · decide +kernel
  · cases h : ledger.compile {} with
    | error e =>
      have hcompiles : (ledger.compile {}).isOk = true := by decide +kernel
      rw [h] at hcompiles
      cases hcompiles
    | ok artifact => exact hcompile (accommodates_ledger _) artifact h

end Package

end MoveCodec
