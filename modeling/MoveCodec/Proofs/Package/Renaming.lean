import MoveCodec.Proofs.Storage.Verdicts
import MoveCodec.Proofs.Types.Renaming
import MoveCodec.Proofs.Wasm.Validity

/-!
# Interfaces and layouts under other numbers

What callers see of a package, and where its objects are stored, does not depend on the numbers of
its definitions.
-/
namespace MoveCodec

open Interface Storage List

variable {f : Renaming} {r r' : Registry}

theorem StructDef.tag_rename (d : StructDef) : (d.rename f).tag = d.tag := rfl

namespace Shape

theorem firstType?_rename (fields : FieldShapes) :
    (fields.rename f).firstType? = fields.firstType?.map (·.rename f) := by
  cases fields with
  | nil => rfl
  | cons name s rest => exact congrArg some (type_rename s)

theorem structDef?_rename (s : Shape) :
    (s.rename f).structDef? = s.structDef?.map (·.rename f) := by
  cases s <;> rfl

theorem isObject_rename (s : Shape) : (s.rename f).isObject = s.isObject := by
  rw [isObject, isObject, structDef?_rename, Option.map_map]
  rfl

theorem requireIdentity_rename (h : r.Renamed f r') (d : StructDef) (first : Option MoveType) :
    Wire.requireIdentity r' (d.rename f) (first.map (·.rename f)) =
      Wire.requireIdentity r d first := by
  have htags : (first.map (·.rename f)).map r'.tagOf = first.map r.tagOf := by
    rw [Option.map_map]
    exact Option.map_congr fun t _ => h.tagOf_eq t
  rw [Wire.requireIdentity, Wire.requireIdentity, htags]
  rfl

mutual

theorem isDynamic_rename (h : r.Renamed f r') : ∀ s : Shape,
    InStep Eq (s.isDynamic r) ((s.rename f).isDynamic r')
  | .bool | .int _ | .address => .ok rfl
  | .signer | .param _ | .ref _ _ | .missing _ _ | .broken _ _ _ | .endless _ _ => .error _ _
  | .vector e => by
    rw [rename, isDynamic, isDynamic]
    exact .bind ((isDynamic_rename h e).within _ _) fun _ _ _ => .ok rfl
  | .enum d args => by
    rw [rename, isDynamic, isDynamic, EnumDef.isSimple_rename]
    split
    · exact .ok rfl
    · exact .error _ _
  | .tagged d args => by
    rw [rename, isDynamic, isDynamic, StructDef.tag_rename]
    generalize d.tag = tag
    cases tag with
    | txContext => exact .error _ _
    | _ => exact .ok rfl
  | .struct d args fields => by
    rw [rename, isDynamic, isDynamic, firstType?_rename, requireIdentity_rename h]
    change InStep Eq (if d.isObject = true then _ else _) (if d.isObject = true then _ else _)
    split
    · exact .bind (.refl _) fun _ _ _ => fieldsDynamic_rename h d.name fields
    · exact fieldsDynamic_rename h d.name fields

theorem fieldsDynamic_rename (h : r.Renamed f r') (owner : String) : ∀ fields : FieldShapes,
    InStep Eq (fieldsDynamic r owner fields) (fieldsDynamic r' owner (fields.rename f))
  | .nil => .ok rfl
  | .cons name s rest => by
    rw [FieldShapes.rename, fieldsDynamic, fieldsDynamic]
    refine .bind ((isDynamic_rename h s).within _ _) fun a _ ha => ?_
    refine .bind (fieldsDynamic_rename h owner rest) fun b _ hb => ?_
    rw [ha, hb]
    exact .ok rfl

end

mutual

theorem canonicalName_rename (r r' : Registry) : ∀ s : Shape,
    InStep Eq (s.canonicalName r) ((s.rename f).canonicalName r')
  | .bool | .int _ | .address => .ok rfl
  | .signer | .param _ | .ref _ _ | .missing _ _ | .broken _ _ _ | .endless _ _ => .error _ _
  | .vector e => by
    rw [rename, canonicalName, canonicalName]
    refine .bind (canonicalName_rename r r' e) fun a _ ha => ?_
    rw [ha]
    exact .ok rfl
  | .enum d args => by
    rw [rename, canonicalName, canonicalName, EnumDef.isSimple_rename]
    split
    · exact .ok rfl
    · exact .error _ _
  | .tagged d args => by
    rw [rename, canonicalName, canonicalName, StructDef.tag_rename]
    generalize d.tag = tag
    cases tag with
    | txContext => exact .error _ _
    | _ => exact .ok rfl
  | .struct d args fields => by
    rw [rename, canonicalName, canonicalName]
    refine .bind (fieldNames_rename r r' d.name fields) fun a _ ha => ?_
    rw [ha]
    exact .ok rfl

theorem fieldNames_rename (r r' : Registry) (owner : String) : ∀ fields : FieldShapes,
    InStep Eq (fieldNames r owner fields) (fieldNames r' owner (fields.rename f))
  | .nil => .ok rfl
  | .cons name s rest => by
    rw [FieldShapes.rename, fieldNames, fieldNames]
    refine .bind ((canonicalName_rename r r' s).within _ _) fun a _ ha => ?_
    refine .bind (fieldNames_rename r r' owner rest) fun b _ hb => ?_
    rw [ha, hb]
    exact .ok rfl

end

theorem paramName_rename (r r' : Registry) (s : Shape) :
    InStep Eq (s.paramName r) ((s.rename f).paramName r') := by
  rw [paramName, paramName, isObject_rename]
  split
  · exact .ok rfl
  · exact canonicalName_rename r r' s

/-- A leaf is described by its canonical name. -/
theorem describeLeaf_rename (h : r.Renamed f r') (name : String) {s : Shape} (hs : r.Knows s.type) :
    InStep Eq
      (do return ({ name, type := ← s.canonicalName r, internal := r.typeName s.type } : Param))
      (do return { name, type := ← (s.rename f).canonicalName r',
                   internal := r'.typeName (s.rename f).type }) := by
  rw [type_rename, h.typeName_eq hs]
  refine .bind (canonicalName_rename r r' s) fun a _ ha => ?_
  rw [ha]
  exact .ok rfl

mutual

theorem describe_rename (h : r.Renamed f r') (hr : r.Closed) (name : String) :
    ∀ {s : Shape}, s.Follows r → r.Knows s.type →
    InStep Eq (s.describe r name) ((s.rename f).describe r' name)
  | .vector e, hs, ht => by
    have htype : r'.typeName (.vector (e.rename f).type) = r.typeName (.vector e.type) := by
      rw [type_rename]
      exact h.typeName_eq ht
    rw [rename, describe, describe, htype]
    refine .bind ((describe_rename h hr "" (s := e) hs (Registry.knows_vector.1 ht)).within _ _) fun q _ hq => ?_
    rw [hq]
    exact .ok rfl
  | .struct d args fields, hs, ht => by
    have htype := h.typeName_eq ht
    rw [← type_rename, rename] at htype
    rw [rename, describe, describe]
    refine .bind (isDynamic_rename h (.struct d args fields)) fun _ _ _ => ?_
    refine .bind (describeFields_rename h hr d.name hs.2.2.2.1 (hr.knows_types hs ht)) fun qs _ hqs => ?_
    rw [hqs, ← htype]
    exact .ok rfl
  | .endless d args, _, _ => .error _ _
  | .bool, _, ht | .int _, _, ht | .address, _, ht | .signer, _, ht | .param _, _, ht
  | .ref _ _, _, ht | .enum _ _, _, ht | .tagged _ _, _, ht | .missing _ _, _, ht
  | .broken _ _ _, _, ht => describeLeaf_rename h name ht

theorem describeFields_rename (h : r.Renamed f r') (hr : r.Closed) (owner : String) :
    ∀ {fields : FieldShapes}, fields.Follow r → (∀ t ∈ fields.types, r.Knows t) →
    InStep Eq (describeFields r owner fields) (describeFields r' owner (fields.rename f))
  | .nil, _, _ => .ok rfl
  | .cons name s rest, hs, hts => by
    obtain ⟨ht, hts⟩ := forall_mem_cons.1 hts
    rw [FieldShapes.rename, describeFields, describeFields]
    refine .bind ((describe_rename h hr name hs.1 ht).within _ _) fun a _ ha => ?_
    refine .bind (describeFields_rename h hr owner hs.2 hts) fun b _ hb => ?_
    rw [ha, hb]
    exact .ok rfl

end

theorem describeInput_rename (h : r.Renamed f r') (hr : r.Closed) {s : Shape} (hs : s.Follows r)
    (ht : r.Knows s.type) :
    InStep Eq (s.describeInput r) ((s.rename f).describeInput r') := by
  rw [describeInput, describeInput, isObject_rename, type_rename, h.typeName_eq ht]
  split
  · exact .ok rfl
  · exact describe_rename h hr "" hs ht

end Shape

/-! ## Layouts -/

/-- A stored word whose type has other numbers. -/
def Storage.Cell.rename (f : Renaming) (c : Cell) : Cell := { c with type := c.type.rename f }

namespace Shape

mutual

theorem cells_rename (r r' : Registry) (path : String) : ∀ s : Shape,
    InStep (fun cs cs' => cs' = cs.map (Cell.rename f)) (s.cells r path)
      ((s.rename f).cells r' path)
  | .bool | .int _ | .address => .ok rfl
  | .signer | .param _ | .vector _ | .missing _ _ | .broken _ _ _ | .endless _ _ => .error _ _
  | .ref m t => by
    rw [rename]
    cases t <;> exact .error _ _
  | .enum d args => by
    rw [rename, cells, cells, EnumDef.isSimple_rename]
    split
    · exact .ok (by simp [Cell.rename, EnumDef.rename])
    · exact .error _ _
  | .tagged d args => by
    have htype : MoveType.struct (d.rename f).id (args.map (·.rename f)) =
        (MoveType.struct d.id args).rename f := (MoveType.rename_struct d.id args).symm
    rw [rename, cells, cells, StructDef.tag_rename, htype]
    generalize d.tag = tag
    cases tag with
    | string => exact .error _ _
    | txContext => exact .error _ _
    | _ => exact .ok rfl
  | .struct d args fields => by
    rw [rename, cells, cells]
    exact fieldCells_rename r r' path fields

theorem fieldCells_rename (r r' : Registry) (path : String) : ∀ fields : FieldShapes,
    InStep (fun cs cs' => cs' = cs.map (Cell.rename f)) (fieldCells r path fields)
      (fieldCells r' path (fields.rename f))
  | .nil => .ok rfl
  | .cons name s rest => by
    rw [FieldShapes.rename, fieldCells, fieldCells]
    refine .bind (cells_rename r r' _ s) fun a a' ha => ?_
    refine .bind (fieldCells_rename r r' path rest) fun b b' hb => ?_
    rw [ha, hb, ← map_append]
    exact .ok rfl

end

end Shape

namespace Registry

/-- Objects are stored in the same places. -/
theorem storageLayout_rename (h : r.Renamed f r') (hr : r.Closed) (id : DefId)
    {args : List MoveType} (hargs : ∀ a ∈ args, r.Knows a) :
    InStep (fun cs cs' => cs' = cs.map (Cell.rename f)) (r.storageLayout id args)
      (r'.storageLayout (f.structs id) (args.map (·.rename f))) := by
  have hfields : InStep (fun fields fields' => fields' = fields.rename f) (r.fieldShapes id args)
      (r'.fieldShapes (f.structs id) (args.map (·.rename f))) := by
    refine .bind (h.fields id args).and_ok fun qs qs' ⟨hqs, heq⟩ => .ok ?_
    rw [heq, FieldShapes.rename_ofList, map_map, map_map]
    refine congrArg _ (map_congr_left fun q hq => ?_)
    exact congrArg (Prod.mk q.name) (Shape.shape_rename h hr (hr.knows_fields hargs hqs q hq))
  refine .bind (h.structOf id args) fun d d' hd => .bind hfields fun fields fields' heq => ?_
  rw [flatMapM_cells, flatMapM_cells, FieldShapes.ofList_toList, FieldShapes.ofList_toList, hd, heq]
  exact Shape.fieldCells_rename r r' d.name fields

/-! ## Signatures -/

theorem isInjected_rename (h : r.Renamed f r') (t : MoveType) :
    r'.isInjected (t.rename f) = r.isInjected t := by
  simp only [isInjected, h.tagOf_eq, MoveType.rename_eq_signer]

theorem publicParams_rename (h : r.Renamed f r') (ps : List MoveType) :
    InStep (fun ts ts' => ts' = ts.map (·.rename f)) (r.publicParams ps)
      (r'.publicParams (ps.map (·.rename f))) := by
  induction ps with
  | nil => exact .ok rfl
  | cons p ps ih =>
    rw [map_cons, publicParams, publicParams]
    refine .bind p.deref_rename fun t t' ht => .bind ih fun ts ts' hts => ?_
    rw [ht, hts, isInjected_rename h]
    split
    · exact .ok rfl
    · exact .ok rfl

theorem knows_of_deref {t u : MoveType} (ht : r.Knows t) (h : t.deref = .ok u) : r.Knows u := by
  cases t with
  | ref m t =>
    have ht := knows_ref.1 ht
    cases t with
    | ref n t => cases h
    | _ =>
      cases h
      exact ht
  | _ =>
    cases h
    exact ht

theorem knows_of_publicParams {ps ts : List MoveType} (hps : ∀ p ∈ ps, r.Knows p)
    (h : r.publicParams ps = .ok ts) : ∀ t ∈ ts, r.Knows t := by
  induction ps generalizing ts with
  | nil =>
    cases h
    exact nofun
  | cons p ps ih =>
    obtain ⟨hp, hps⟩ := forall_mem_cons.1 hps
    obtain ⟨u, hu, h⟩ := Assembly.bind_eq_ok h
    obtain ⟨us, hus, h⟩ := Assembly.bind_eq_ok h
    cases h
    split
    · exact ih hps hus
    · exact forall_mem_cons.2 ⟨knows_of_deref hp hu, ih hps hus⟩

theorem signature_rename (h : r.Renamed f r') (hr : r.Closed) (name : String)
    {ts : List MoveType} (hts : ∀ t ∈ ts, r.Knows t) :
    InStep Eq (r.signature name ts) (r'.signature name (ts.map (·.rename f))) := by
  rw [signature, signature, zipIdx_map]
  refine .bind (InStep.mapM_same fun x hx => ?_) fun as bs hbs => ?_
  · refine InStep.within ?_ _ _
    rw [paramName, paramName,
      Shape.shape_rename h hr (hts x.1 (fst_mem_of_mem_zipIdx hx))]
    exact Shape.paramName_rename r r' _
  · rw [hbs]
    exact .ok rfl

theorem functionSignature_rename (h : r.Renamed f r') (hr : r.Closed) (name : String)
    {ps : List MoveType} (hps : ∀ p ∈ ps, r.Knows p) :
    InStep Eq (r.functionSignature name ps) (r'.functionSignature name (ps.map (·.rename f))) := by
  refine .bind (publicParams_rename h ps).and_ok fun ts ts' ⟨hts, heq⟩ => ?_
  rw [heq]
  exact signature_rename h hr _ (knows_of_publicParams hps hts)

theorem payloadSignature_rename (h : r.Renamed f r') (hr : r.Closed) (d : StructDef) :
    InStep Eq (r.payloadSignature d) (r'.payloadSignature (d.rename f)) := by
  have htypes : InStep (fun ts ts' => (∀ t ∈ ts, r.Knows t) ∧ ts' = ts.map (·.rename f))
      (r.payloadTypes .selector d) (r'.payloadTypes .selector (d.rename f)) := by
    unfold payloadTypes
    change InStep _ (if 0 < d.arity then _ else _) (if 0 < d.arity then _ else _)
    split
    · exact .error _ _
    · refine .bind (h.fields d.id []).and_ok fun qs qs' ⟨hqs, heq⟩ => .ok ⟨?_, ?_⟩
      · exact forall_mem_map.2 (hr.knows_fields (forall_mem_nil _) hqs)
      · rw [heq, map_map, map_map]
        rfl
  refine .bind htypes fun ts ts' ⟨hts, heq⟩ => ?_
  rw [heq]
  refine .bind (InStep.mapM_same fun t ht => ?_) fun as bs hbs => ?_
  · refine InStep.within ?_ _ _
    rw [canonicalName, canonicalName, Shape.shape_rename h hr (hts t ht)]
    exact Shape.canonicalName_rename r r' _
  · rw [hbs]
    exact .ok rfl

end Registry

/-! ## Interfaces -/

/-- A function whose types have other numbers. -/
def PublicFunction.rename (f : Renaming) (g : PublicFunction) : PublicFunction :=
  { g with params := g.params.map (·.rename f), results := g.results.map (·.rename f) }

namespace Package

variable {p p' : Package}

section

variable (h : p.registry.Renamed f p'.registry)

include h

theorem functionEntry_rename (hr : p.registry.Closed)
    {g : PublicFunction} (hparams : ∀ t ∈ g.params, p.registry.Knows t)
    (hresults : ∀ t ∈ g.results, p.registry.Knows t) :
    InStep Eq (p.functionEntry g) (p'.functionEntry (g.rename f)) := by
  have hdescribed (describe : Registry → Shape → Except Error Param) {ts : List MoveType}
      (hdescribe : ∀ {s : Shape}, s.Follows p.registry → p.registry.Knows s.type →
        InStep Eq (describe p.registry s) (describe p'.registry (s.rename f)))
      (hts : ∀ t ∈ ts, p.registry.Knows t) :
      InStep Eq (ts.mapM fun t => describe p.registry (p.registry.shape t))
        ((ts.map (·.rename f)).mapM fun t => describe p'.registry (p'.registry.shape t)) := by
    refine InStep.mapM_same fun t ht => ?_
    rw [Shape.shape_rename h hr (hts t ht)]
    exact hdescribe (Shape.follows_shape t) (by rw [Shape.type_shape]; exact hts t ht)
  have hderefs : InStep (fun ts ts' => ts' = ts.map (·.rename f)) (g.results.mapM MoveType.deref)
      ((g.results.map (·.rename f)).mapM MoveType.deref) :=
    InStep.mapM_map fun t _ => t.deref_rename
  refine .bind (R := Eq) (.within ?_ _ _) fun x y hxy => ?_
  · refine .bind (Registry.publicParams_rename h g.params).and_ok fun ts ts' ⟨hts, heq⟩ => ?_
    rw [heq]
    refine .bind (hdescribed Shape.describeInput (Shape.describeInput_rename h hr)
      (Registry.knows_of_publicParams hparams hts)) fun inputs inputs' hin => ?_
    refine .bind hderefs.and_ok fun us us' ⟨hus, heq'⟩ => ?_
    have hknows : ∀ u ∈ us, p.registry.Knows u := fun u hu => by
      obtain ⟨t, ht, hderef⟩ := Assembly.exists_of_mapM_eq_ok hus hu
      exact Registry.knows_of_deref (hresults t ht) hderef
    rw [heq']
    refine .bind (hdescribed (fun r s => s.describe r "") (Shape.describe_rename h hr "") hknows)
      fun outputs outputs' hout => ?_
    rw [hin, hout]
    exact .ok rfl
  · refine .bind (Registry.functionSignature_rename h hr g.name hparams) fun a b hab => ?_
    rw [hxy, hab]
    exact .ok rfl

theorem payloadParams_rename (hr : p.registry.Closed)
    (d : StructDef) : InStep Eq (p.payloadParams d) (p'.payloadParams (d.rename f)) := by
  refine .bind (h.fields d.id []).and_ok fun qs qs' ⟨hqs, heq⟩ => ?_
  have hknows := hr.knows_fields (forall_mem_nil _) hqs
  rw [heq]
  refine InStep.mapM_same fun q hq => InStep.within ?_ _ _
  rw [Field.rename, Shape.shape_rename h hr (hknows q hq)]
  exact Shape.describe_rename h hr q.name (Shape.follows_shape q.type)
    (by rw [Shape.type_shape]; exact hknows q hq)

theorem errorEntry_rename (hr : p.registry.Closed)
    (d : StructDef) : InStep Eq (p.errorEntry d) (p'.errorEntry (d.rename f)) := by
  refine .bind (payloadParams_rename h hr d) fun qs qs' hqs => ?_
  refine .bind (Registry.payloadSignature_rename h hr d) fun a b hab => ?_
  rw [hqs, hab]
  exact .ok rfl

theorem eventEntry_rename (hr : p.registry.Closed)
    (d : StructDef) : InStep Eq (p.eventEntry d) (p'.eventEntry (d.rename f)) := by
  refine .bind (payloadParams_rename h hr d) fun qs qs' hqs => ?_
  refine .bind (Registry.payloadSignature_rename h hr d) fun a b hab => ?_
  rw [hqs, hab]
  exact .ok rfl

end

end Package

end MoveCodec
