import MoveCodec.Proofs.Package.Generation

/-!
# Descriptions and signatures

A client encodes the arguments of a call from the description of a package, while the call is told
by the hash of a signature. The parameters of an entry spell its signature once every tuple is
written out by its components. Every package whose functions can be generated has a description.
-/
namespace MoveCodec

open Assembly Prelude List

variable {f : PublicFunction} {name signature : String} {ts : List MoveType}

variable {q : Param} {qs : List Param} {e : Interface.Entry} {d : StructDef}

/-! ## Parameters written out -/

namespace Interface

def isBrackets : List Char → Bool
  | [] => true
  | '[' :: ']' :: cs => isBrackets cs
  | _ => false

def tupleSuffix? : List Char → Option (List Char)
  | 't' :: 'u' :: 'p' :: 'l' :: 'e' :: cs => if isBrackets cs then some cs else none
  | _ => none

theorem isBrackets_append (cs : List Char) : isBrackets (cs ++ ['[', ']']) = isBrackets cs := by
  induction cs using isBrackets.induct with
  | case1 => rfl
  | case2 cs ih => simpa [isBrackets] using ih
  | case3 cs hnil hpair =>
    match cs with
    | [] => exact absurd rfl hnil
    | [c] => simp [isBrackets]
    | c :: d :: rest =>
      simp only [cons_append]
      have hne := hpair rest
      unfold isBrackets
      grind

theorem tupleSuffix?_append (cs : List Char) :
    tupleSuffix? (cs ++ ['[', ']']) = (tupleSuffix? cs).map (· ++ ['[', ']']) := by
  match cs with
  | [] | [_] | [_, _] | [_, _, _] | [_, _, _, _] => simp [tupleSuffix?]
  | a :: b :: c :: d :: e :: rest =>
    simp only [cons_append]
    unfold tupleSuffix?
    grind [isBrackets_append]

mutual

/-- The type of a parameter; a tuple, or an array of tuples, is written out by its components. -/
def Param.expand : Param → String
  | { type, components, .. } =>
    match tupleSuffix? type.toList with
    | some suffix => Wire.tuple (expandAll components) ++ String.ofList suffix
    | none => type

def expandAll : List Param → List String
  | [] => []
  | q :: qs => Param.expand q :: expandAll qs

end

theorem expandAll_eq (qs : List Param) : expandAll qs = qs.map Param.expand := by
  induction qs with
  | nil => rfl
  | cons q qs ih => rw [expandAll, ih, map_cons]

theorem Param.expand_eq (q : Param) :
    q.expand = match tupleSuffix? q.type.toList with
      | some suffix => Wire.tuple (q.components.map Param.expand) ++ String.ofList suffix
      | none => q.type := by
  cases q
  rw [Param.expand, expandAll_eq]

/-- An array is written out as its elements are. -/
theorem Param.expand_array (q : Param) (name internal : String) :
    Param.expand { q with name, type := q.type ++ "[]", internal } = q.expand ++ "[]" := by
  have hlist : (q.type ++ "[]").toList = q.type.toList ++ ['[', ']'] := String.toList_append
  rw [Param.expand_eq, Param.expand_eq, hlist, tupleSuffix?_append]
  cases tupleSuffix? q.type.toList with
  | none => rfl
  | some suffix =>
    simp only [Option.map_some, String.ofList_append, String.append_assoc]

theorem Param.expand_tuple (h : q.type = "tuple") :
    q.expand = Wire.tuple (q.components.map Param.expand) := by
  rw [Param.expand_eq, h]
  exact String.append_empty

theorem Param.expand_indexed (q : Param) (indexed : Bool) :
    Param.expand { q with indexed } = q.expand := by
  rw [Param.expand_eq, Param.expand_eq]

theorem Param.expand_of_head (h : q.type.toList.head? ≠ some 't') :
    q.expand = q.type := by
  rw [Param.expand_eq]
  split
  · rename_i suffix hsuffix
    unfold tupleSuffix? at hsuffix
    split at hsuffix
    · rename_i heq
      rw [heq] at h
      exact absurd rfl h
    · cases hsuffix
  · rfl

end Interface

open Interface

variable {r : Registry}

/-! ## Types -/

theorem head?_append_ne {a b : String} {c : Char} (ha : a.toList.head? ≠ some c)
    (hb : b.toList.head? ≠ some c) : (a ++ b).toList.head? ≠ some c := by
  rw [String.toList_append, head?_append]
  cases h : a.toList.head? with
  | none => simpa using hb
  | some x => simpa [h] using ha

/-- No canonical name begins as the word for a tuple does. -/
theorem Shape.head?_canonicalName : ∀ {s : Shape} {name : String}, s.canonicalName r = .ok name →
    name.toList.head? ≠ some 't'
  | .vector e, _, h => by
    rw [canonicalName] at h
    obtain ⟨name, hname, h⟩ := bind_eq_ok h
    cases h
    exact head?_append_ne (Shape.head?_canonicalName hname) (by decide)
  | .struct d _ fields, _, h => by
    rw [canonicalName] at h
    obtain ⟨names, -, h⟩ := bind_eq_ok h
    cases h
    rw [Wire.tuple, String.append_assoc, String.toList_append]
    simp
  | .bool, _, h | .address, _, h => by
    cases h
    decide
  | .int w, _, h => by
    cases h
    cases w <;> decide
  | .enum d _, _, h => by
    rw [canonicalName] at h
    split at h
    · cases h
      decide
    · cases h
  | .tagged d _, _, h => by
    rw [canonicalName] at h
    split at h
    · cases h
      decide
    · cases h
      rw [String.toList_append]
      simp
    · cases h
    · cases h
      decide
  | .signer, _, h | .param _, _, h | .ref _ _, _, h | .missing _ _, _, h | .broken _ _ _, _, h
  | .endless _ _, _, h => by cases h

mutual

/-- The description of a type, written out, is its canonical name, and it is not indexed. -/
theorem Shape.expand_of_describe : ∀ {s : Shape} {name : String} {q : Param},
    s.describe r name = .ok q → s.canonicalName r = .ok q.expand ∧ q.indexed = false
  | .vector e, name, _, h => by
    rw [Shape.describe] at h
    obtain ⟨item, hitem, h⟩ := bind_eq_ok h
    cases h
    obtain ⟨hname, hplain⟩ := Shape.expand_of_describe (Shape.within_eq_ok hitem)
    rw [Param.expand_array, Shape.canonicalName, hname]
    exact ⟨rfl, hplain⟩
  | .struct d args fields, name, _, h => by
    rw [Shape.describe] at h
    obtain ⟨_, -, h⟩ := bind_eq_ok h
    obtain ⟨components, hfields, h⟩ := bind_eq_ok h
    cases h
    rw [Param.expand_tuple rfl, Shape.canonicalName, FieldShapes.expand_of_describeFields hfields]
    exact ⟨rfl, rfl⟩
  | .endless _ _, _, _, h => by cases h
  | .bool, _, _, h | .int _, _, _, h | .address, _, _, h | .signer, _, _, h
  | .param _, _, _, h | .ref _ _, _, _, h | .missing _ _, _, _, h | .broken _ _ _, _, _, h
  | .enum _ _, _, _, h | .tagged _ _, _, _, h => by
    unfold Shape.describe at h
    obtain ⟨name, hname, h⟩ := bind_eq_ok h
    cases h
    rw [hname, Param.expand_of_head (Shape.head?_canonicalName hname)]
    exact ⟨rfl, rfl⟩

theorem FieldShapes.expand_of_describeFields : ∀ {owner : String} {fields : FieldShapes}
    {qs : List Param}, Shape.describeFields r owner fields = .ok qs →
      Shape.fieldNames r owner fields = .ok (qs.map Param.expand)
  | _, .nil, _, h => by
    cases h
    rfl
  | owner, .cons name s rest, _, h => by
    rw [Shape.describeFields] at h
    obtain ⟨q, hq, h⟩ := bind_eq_ok h
    obtain ⟨qs, hqs, h⟩ := bind_eq_ok h
    cases h
    rw [Shape.fieldNames, (Shape.expand_of_describe (Shape.within_eq_ok hq)).1,
      FieldShapes.expand_of_describeFields hqs]
    rfl

end

theorem Shape.expand_of_describeInput {s : Shape} (h : s.describeInput r = .ok q) :
    s.paramName r = .ok q.expand := by
  rw [describeInput] at h
  rw [paramName]
  split_ifs at h with hobject
  · cases h
    rw [if_pos hobject, Param.expand_of_head]
    change "bytes32".toList.head? ≠ some 't'
    decide
  · rw [if_neg hobject]
    exact (expand_of_describe h).1

/-! ## Entries -/

theorem mapM_zipIdx_eq_ok {α β : Type} {f : α → Except Error β} {xs : List α} {ys : List β}
    (h : List.Forall₂ (fun x y => f x = .ok y) xs ys) (step : Nat → String) (i : Nat) :
    ((xs.zipIdx i).mapM fun (x, i) => within (step i) (f x)) = .ok ys := by
  induction h generalizing i with
  | nil => rfl
  | cons hx _ ih =>
    rw [zipIdx_cons, mapM_cons, ih]
    simp only [hx]
    rfl

/-- The signature of described parameters. -/
theorem Registry.signature_eq
    (h : ts.mapM (fun t => (r.shape t).describeInput r) = .ok qs) :
    r.signature name ts = .ok (name ++ Wire.tuple (qs.map Param.expand)) := by
  have hnames : List.Forall₂ (fun t n => r.paramName t = .ok n) ts (qs.map Param.expand) := by
    rw [forall₂_map_right_iff]
    exact (mapM_eq_ok.1 h).imp fun _ _ => Shape.expand_of_describeInput
  rw [signature, mapM_zipIdx_eq_ok hnames (fun i => name ++ "#" ++ toString i) 0]
  rfl

namespace Package

variable {p : Package}

theorem functionEntry_eq_ok
    (h : p.functionEntry f = .ok e) :
    e.kind = .function ∧ e.signature = e.name ++ Wire.tuple (e.inputs.map Param.expand) ∧
      p.registry.functionSignature f.name f.params = .ok e.signature ∧
      ∃ results, f.results.mapM MoveType.deref = .ok results ∧
        results.mapM p.registry.canonicalName = .ok (e.outputs.map Param.expand) := by
  obtain ⟨⟨inputs, outputs⟩, hparams, h⟩ := bind_eq_ok h
  obtain ⟨ts, hts, hparams⟩ := bind_eq_ok (Shape.within_eq_ok hparams)
  obtain ⟨_, hinputs, hparams⟩ := bind_eq_ok hparams
  obtain ⟨results, hresults, hparams⟩ := bind_eq_ok hparams
  obtain ⟨_, houtputs, hparams⟩ := bind_eq_ok hparams
  cases hparams
  obtain ⟨signature, hsignature, h⟩ := bind_eq_ok h
  cases h
  have hsame : p.registry.functionSignature f.name f.params =
      .ok (Text.lowerCamel f.name ++ Wire.tuple (inputs.map Param.expand)) := by
    rw [Registry.functionSignature, hts]
    exact Registry.signature_eq hinputs
  refine ⟨rfl, ?_, hsignature, results, hresults, mapM_eq_ok.2 ?_⟩
  · exact Except.ok.inj (hsignature.symm.trans hsame)
  · rw [forall₂_map_right_iff]
    exact (mapM_eq_ok.1 houtputs).imp fun _ _ h => (Shape.expand_of_describe h).1

/-- The signature of an error or event is that of its described fields. -/
theorem payloadSignature_eq
    (hqs : p.payloadParams d = .ok qs) (h : p.registry.payloadSignature d = .ok signature) :
    signature = Text.upperCamel d.name ++ Wire.tuple (qs.map Param.expand) := by
  obtain ⟨fs, hfs, hqs⟩ := bind_eq_ok hqs
  obtain ⟨ts, hts, h⟩ := bind_eq_ok h
  obtain ⟨names, hnames, h⟩ := bind_eq_ok h
  cases h
  unfold Registry.payloadTypes at hts
  split at hts
  · cases hts
  obtain ⟨fs', hfs', hts⟩ := bind_eq_ok hts
  cases hts
  cases hfs.symm.trans hfs'
  have hsame : ((fs.map (·.type)).mapM fun t => within d.name (p.registry.canonicalName t)) =
      .ok (qs.map Param.expand) := by
    refine mapM_eq_ok.2 ?_
    rw [forall₂_map_left_iff, forall₂_map_right_iff]
    refine (mapM_eq_ok.1 hqs).imp fun f q hq => ?_
    rw [Registry.canonicalName, (Shape.expand_of_describe (Shape.within_eq_ok hq)).1]
    rfl
  rw [Except.ok.inj (hnames.symm.trans hsame)]

theorem indexed_of_payloadParams
    (h : p.payloadParams d = .ok qs) (hq : q ∈ qs) : q.indexed = false := by
  obtain ⟨fs, -, h⟩ := bind_eq_ok h
  obtain ⟨f, -, hf⟩ := exists_of_mapM_eq_ok h hq
  exact (Shape.expand_of_describe (Shape.within_eq_ok hf)).2

theorem errorEntry_eq_ok (h : p.errorEntry d = .ok e) :
    e.kind = .error ∧ e.signature = e.name ++ Wire.tuple (e.inputs.map Param.expand) ∧
      p.registry.payloadSignature d = .ok e.signature := by
  obtain ⟨inputs, hinputs, h⟩ := bind_eq_ok h
  obtain ⟨signature, hsignature, h⟩ := bind_eq_ok h
  cases h
  exact ⟨rfl, payloadSignature_eq hinputs hsignature, hsignature⟩

theorem eventEntry_eq_ok (h : p.eventEntry d = .ok e) :
    e.kind = .event ∧ e.signature = e.name ++ Wire.tuple (e.inputs.map Param.expand) ∧
      p.registry.payloadSignature d = .ok e.signature ∧
      ∀ (i : Nat) (q : Param), e.inputs[i]? = some q → (q.indexed = true ↔ (i : Int) < d.indexed) := by
  obtain ⟨inputs, hinputs, h⟩ := bind_eq_ok h
  obtain ⟨signature, hsignature, h⟩ := bind_eq_ok h
  cases h
  refine ⟨rfl, ?_, hsignature, fun i q hq => ?_⟩
  · rw [payloadSignature_eq hinputs hsignature]
    conv_lhs => rw [← zipIdx_map_fst 0 inputs]
    rw [map_map, map_map]
    refine congrArg (Text.upperCamel d.name ++ Wire.tuple ·) (map_congr_left ?_).symm
    rintro ⟨q, i⟩ -
    simp only [Function.comp_apply]
    split
    · exact q.expand_indexed true
    · rfl
  · rw [getElem?_map, getElem?_zipIdx, Option.map_map, Option.map_eq_some_iff] at hq
    obtain ⟨q', hq', rfl⟩ := hq
    have hplain := indexed_of_payloadParams hinputs (mem_of_getElem? hq')
    simp only [Function.comp_apply, Nat.zero_add]
    split
    · exact iff_of_true rfl ‹_›
    · exact iff_of_false (by simp [hplain]) ‹_›

/-! ## Which packages have a description -/

theorem exists_publicParams (h : ∀ t ∈ ts, Codec.Acceptable r t) :
    ∃ us, r.publicParams ts = .ok us ∧ ∀ u ∈ us, ∃ q, (r.shape u).describeInput r = .ok q := by
  induction ts with
  | nil => exact ⟨[], rfl, nofun⟩
  | cons t ts ih =>
    obtain ⟨⟨u, boxed, hunbox, hsource⟩, hts⟩ := forall_mem_cons.1 h
    obtain ⟨us, hus, hall⟩ := ih hts
    rw [Registry.publicParams, (Codec.unbox_eq_ok hunbox).1, hus]
    refine ⟨_, rfl, ?_⟩
    split
    · exact hall
    · rename_i hinjected
      simp only [Registry.isInjected, Bool.or_eq_true, decide_eq_true_eq, not_or] at hinjected
      refine forall_mem_cons.2 ⟨?_, hall⟩
      rw [Codec.Obtainable, or_iff_right hinjected.1, or_iff_right hinjected.2] at hsource
      rw [Shape.describeInput]
      split_ifs at hsource ⊢ with hobject
      · exact ⟨_, rfl⟩
      · exact hsource.1.exists_describe ""

theorem exists_functionEntry
    (hparams : ∀ t ∈ f.params, Codec.Acceptable p.registry t)
    (hresults : ∀ t ∈ f.results, Codec.Encodable p.registry t) :
    ∃ e, p.functionEntry f = .ok e := by
  obtain ⟨ts, hts, hdescribed⟩ := exists_publicParams hparams
  obtain ⟨inputs, hinputs⟩ := exists_mapM_eq_ok.2 hdescribed
  have hderef : ∀ t ∈ f.results, ∃ u, t.deref = .ok u ∧ (p.registry.shape u).Classed p.registry := by
    intro t ht
    obtain ⟨u, boxed, hunbox, hclassed⟩ := hresults t ht
    exact ⟨u, (Codec.unbox_eq_ok hunbox).1, hclassed⟩
  obtain ⟨results, hresults⟩ := exists_mapM_eq_ok.2 fun t ht => (hderef t ht).imp fun _ h => h.1
  have houtput : ∀ u ∈ results, ∃ q, (p.registry.shape u).describe p.registry "" = .ok q := by
    intro u hu
    obtain ⟨t, ht, htu⟩ := exists_of_mapM_eq_ok hresults hu
    obtain ⟨u', hu', hclassed⟩ := hderef t ht
    cases htu.symm.trans hu'
    exact hclassed.exists_describe ""
  obtain ⟨outputs, houtputs⟩ := exists_mapM_eq_ok.2 houtput
  have hsignature : p.registry.functionSignature f.name f.params =
      .ok (Text.lowerCamel f.name ++ Wire.tuple (inputs.map Param.expand)) := by
    rw [Registry.functionSignature, hts]
    exact Registry.signature_eq hinputs
  simp only [functionEntry, hts, hinputs, hresults, houtputs, hsignature, bind, Except.bind]
  exact ⟨_, rfl⟩

theorem unbox_of_canonicalName {t : MoveType} {phase : Phase}
    (h : r.canonicalName t = .ok name) : Codec.unbox phase t = .ok (t, false) := by
  cases t with
  | ref m t =>
    rw [Registry.canonicalName, Registry.shape, Shape.expand_eq, Shape.ofType] at h
    cases h
  | _ => rfl

theorem exists_payloadParams
    (h : p.registry.payloadSignature d = .ok signature)
    (hencodable : Codec.PayloadEncodable p.registry d.type) :
    ∃ qs, p.payloadParams d = .ok qs := by
  obtain ⟨ts, hts, h⟩ := bind_eq_ok h
  obtain ⟨names, hnames, -⟩ := bind_eq_ok h
  unfold Registry.payloadTypes at hts
  split at hts
  · cases hts
  obtain ⟨fs, hfs, hts⟩ := bind_eq_ok hts
  cases hts
  rw [payloadParams, hfs]
  refine exists_mapM_eq_ok.2 fun f hf => ?_
  obtain ⟨name, hname⟩ := exists_mapM_eq_ok.1 ⟨_, hnames⟩ f.type (mem_map_of_mem hf)
  obtain ⟨u, boxed, hunbox, hclassed⟩ := hencodable _ _ fs rfl hfs f hf
  rw [unbox_of_canonicalName (Shape.within_eq_ok hname)] at hunbox
  cases hunbox
  obtain ⟨q, hq⟩ := hclassed.exists_describe f.name
  exact ⟨q, by rw [hq]; rfl⟩

/-- A package whose exports were generated can be described. -/
theorem exists_interface (hr : p.registry.Made) {config : CompileOptions} {a : Assembly}
    (h : ((p.exports config).forM fun (name, gen) => Export.add name gen).run
      (start p.home.name config.options) = .ok () a) : ∃ entries, p.interface = .ok entries := by
  obtain ⟨-, -, hruns⟩ := fulfilled_of_run (underway_start (c := ⟨p.registry, config.options⟩) _)
    (decides_exports hr config (N := Set.univ) fun _ _ => trivial) h (nodup_exportNames_start ..)
  have hroutines : ∀ x ∈ Codec.routines, x ∈ Set.univ := fun _ _ => trivial
  have hfunction : ∀ f ∈ p.functions, ∃ e, p.functionEntry f = .ok e := by
    intro f hf
    obtain ⟨hdecode, hencode⟩ := mem_exports_of_function config hf
    obtain ⟨_, _, _, ha, hrun⟩ := hruns _ hdecode
    obtain ⟨⟨-, hparams⟩, -⟩ := (Codec.decides_unpackValues (c := ⟨p.registry, config.options⟩)
      (J := Set.univ) hr hroutines (fun _ _ => trivial) (.inl trivial)).of_run ha hrun
    obtain ⟨_, _, _, ha, hrun⟩ := hruns _ hencode
    obtain ⟨⟨-, hresults⟩, -⟩ := (Codec.decides_packValues (c := ⟨p.registry, config.options⟩)
      (J := Set.univ) hr hroutines (fun _ _ => trivial) (.inl trivial)).of_run ha hrun
    exact exists_functionEntry hparams hresults
  have herror : ∀ d ∈ p.errors, ∃ e, p.errorEntry d = .ok e := by
    intro d hd
    have hrevert := Codec.decides_revert (c := ⟨p.registry, config.options⟩) (J := Set.univ)
      (d := d) hr hroutines (fun _ _ => trivial) (.inl trivial)
    obtain ⟨_, _, _, ha, hrun⟩ := hruns _ (mem_exports_of_error config hd)
    obtain ⟨_, _, ⟨signature, hsignature⟩, hencodable⟩ := (hrevert.of_run ha hrun).1
    obtain ⟨inputs, hinputs⟩ := exists_payloadParams hsignature hencodable
    simp only [errorEntry, hinputs, hsignature]
    exact ⟨_, rfl⟩
  have hevent : ∀ d ∈ p.events, ∃ e, p.eventEntry d = .ok e := by
    intro d hd
    have hemit := Codec.decides_emit (c := ⟨p.registry, config.options⟩) (J := Set.univ)
      (d := d) hr hroutines (fun _ _ => trivial) (.inl trivial)
    obtain ⟨_, _, _, ha, hrun⟩ := hruns _ (mem_exports_of_event config hd)
    obtain ⟨_, _, ⟨signature, hsignature⟩, hencodable⟩ := (hemit.of_run ha hrun).1
    obtain ⟨inputs, hinputs⟩ := exists_payloadParams hsignature hencodable
    simp only [eventEntry, hinputs, hsignature]
    exact ⟨_, rfl⟩
  obtain ⟨functions, hfunctions⟩ := exists_mapM_eq_ok.2 hfunction
  obtain ⟨errors, herrors⟩ := exists_mapM_eq_ok.2 herror
  obtain ⟨events, hevents⟩ := exists_mapM_eq_ok.2 hevent
  simp only [interface, hfunctions, herrors, hevents]
  exact ⟨_, rfl⟩

/-- A package is described by its signatures: whenever its exports can be generated it has a
description, and the parameters of each entry, written out, are those of the entry's signature. The
outputs of a function, written out, are the canonical names of its results. Of the parameters of an
event the leading ones are indexed. -/
theorem interface_spells_signatures (p : Package) (hr : p.registry.Made) :
    (∀ (config : CompileOptions) (a : Assembly),
      ((p.exports config).forM fun (name, gen) => Export.add name gen).run
        (start p.home.name config.options) = .ok () a → ∃ entries, p.interface = .ok entries) ∧
    ∀ entries, p.interface = .ok entries →
      (∀ e ∈ entries, e.signature = e.name ++ Wire.tuple (e.inputs.map Param.expand)) ∧
      ∃ functions errors events, entries = functions ++ errors ++ events ∧
        List.Forall₂ (fun f e => e.kind = .function ∧
          p.registry.functionSignature f.name f.params = .ok e.signature ∧
          ∃ results, f.results.mapM MoveType.deref = .ok results ∧
            results.mapM p.registry.canonicalName = .ok (e.outputs.map Param.expand))
          p.functions functions ∧
        List.Forall₂ (fun d e => e.kind = .error ∧
          p.registry.payloadSignature d = .ok e.signature) p.errors errors ∧
        List.Forall₂ (fun d e => e.kind = .event ∧
          p.registry.payloadSignature d = .ok e.signature ∧
          ∀ (i : Nat) (q : Param), e.inputs[i]? = some q →
            (q.indexed = true ↔ (i : Int) < d.indexed)) p.events events := by
  refine ⟨fun config a h => exists_interface hr h, fun entries h => ?_⟩
  obtain ⟨functions, hfunctions, h⟩ := bind_eq_ok h
  obtain ⟨errors, herrors, h⟩ := bind_eq_ok h
  obtain ⟨events, hevents, h⟩ := bind_eq_ok h
  cases h
  refine ⟨fun e he => ?_, functions, errors, events, rfl, ?_, ?_, ?_⟩
  · rw [mem_append, mem_append] at he
    rcases he with (he | he) | he
    · obtain ⟨f, -, hf⟩ := exists_of_mapM_eq_ok hfunctions he
      exact (functionEntry_eq_ok hf).2.1
    · obtain ⟨d, -, hd⟩ := exists_of_mapM_eq_ok herrors he
      exact (errorEntry_eq_ok hd).2.1
    · obtain ⟨d, -, hd⟩ := exists_of_mapM_eq_ok hevents he
      exact (eventEntry_eq_ok hd).2.1
  · refine (mapM_eq_ok.1 hfunctions).imp fun f e hf => ?_
    obtain ⟨hkind, -, hrest⟩ := functionEntry_eq_ok hf
    exact ⟨hkind, hrest⟩
  · refine (mapM_eq_ok.1 herrors).imp fun d e hd => ?_
    obtain ⟨hkind, -, hrest⟩ := errorEntry_eq_ok hd
    exact ⟨hkind, hrest⟩
  · refine (mapM_eq_ok.1 hevents).imp fun d e hd => ?_
    obtain ⟨hkind, -, hrest⟩ := eventEntry_eq_ok hd
    exact ⟨hkind, hrest⟩

theorem interface_spells_signatures_ledger :
    ∃ entries, ledger.interface = .ok entries ∧
      entries.map (·.signature) = ["submit((address,uint64[])[],bool)",
        "Rejected((address,uint64[]))", "Recorded(address,(address,uint64[])[][])"] ∧
      ∀ e ∈ entries, e.signature = e.name ++ Wire.tuple (e.inputs.map Param.expand) := by
  obtain ⟨hdescribed, hentries⟩ := interface_spells_signatures ledger made_ledger
  cases hrun : ((ledger.exports {}).forM fun (name, gen) => Export.add name gen).run
      (start ledger.home.name {}) with
  | error e a =>
    have hruns : (match ((ledger.exports {}).forM fun (name, gen) => Export.add name gen).run
        (start ledger.home.name {}) with
      | .ok _ _ => true
      | .error _ _ => false) = true := by
      decide +kernel
    rw [hrun] at hruns
    cases hruns
  | ok _ a =>
    obtain ⟨entries, h⟩ := hdescribed {} a hrun
    refine ⟨entries, h, ?_, (hentries entries h).1⟩
    have hsignatures : (ledger.interface.map fun entries => entries.map (·.signature)) =
        .ok ["submit((address,uint64[])[],bool)", "Rejected((address,uint64[]))",
          "Recorded(address,(address,uint64[])[][])"] := by
      decide +kernel
    rw [h] at hsignatures
    exact Except.ok.inj hsignatures

end Package

end MoveCodec
