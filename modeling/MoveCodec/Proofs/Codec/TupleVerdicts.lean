import MoveCodec.Proofs.Codec.UnpackGenerators

/-!
# Which tuples, errors and events are accepted

The function of a tuple is generated if those of all its types are. For errors and events the checks
of their definitions come on top.
-/
namespace MoveCodec.Codec

open Wasm Wasm.Emit Assembly Prelude Machine List

variable {boxed : Bool} {fields ps : List (MoveType × UInt32)} {phase : Phase}

variable {t : MoveType} {ts : List MoveType} {d : StructDef}

variable {c : Context} {N J O D : Set Request}

/-! ## Requests -/

def packRequests (r : Registry) (t : MoveType) : List Request :=
  (r.shape t).components.map fun u => ⟨"pack", [u]⟩

def unpackRequests (r : Registry) (t : MoveType) : List Request :=
  (r.shape t).components.map fun u => ⟨"unpack", [u]⟩

def sourceRequests (r : Registry) (t : MoveType) : List Request :=
  match t with
  | .struct id args =>
    if (r.shape t).isObject then Storage.objectRequests r id args else unpackRequests r t
  | _ => unpackRequests r t

def packValuesRequests (r : Registry) (ts : List MoveType) : List Request :=
  ⟨"pack_values", ts⟩ :: ts.flatMap fun t => packRequests r (target t)

def unpackValuesRequests (r : Registry) (ts : List MoveType) : List Request :=
  ⟨"unpack_values", ts⟩ :: ts.flatMap fun t => sourceRequests r (target t)

/-- The requests that the fields of an error or event make. -/
def payloadRequests (r : Registry) (d : StructDef) : List Request :=
  match r.fields d.id [] with
  | .ok fs => fs.flatMap fun f => packRequests r (target f.type)
  | .error _ => []

def revertRequests (r : Registry) (d : StructDef) : List Request :=
  ⟨"revert", [d.type]⟩ :: ⟨"raise", [d.type]⟩ :: payloadRequests r d

def emitRequests (r : Registry) (d : StructDef) : List Request :=
  ⟨"emit", [d.type]⟩ :: payloadRequests r d

/-! ## Places -/

theorem forall_mem_zip {α β : Type} {p : α → Prop} {as : List α} {bs : List β}
    (h : as.length = bs.length) : (∀ x ∈ as.zip bs, p x.1) ↔ ∀ a ∈ as, p a := by
  conv_rhs => rw [← map_fst_zip h.le]
  simp only [forall_mem_map]

theorem target_of_unbox {type : MoveType}
    (h : unbox phase t = .ok (type, boxed)) : target t = type := by
  unfold unbox at h
  split at h
  · cases h
  · cases h
    rfl
  · rename_i hne
    cases h
    cases t with
    | ref m t => exact absurd rfl (hne m t)
    | _ => rfl

theorem unbox_eq_ok {u : MoveType}
    (h : unbox phase t = .ok (u, boxed)) :
    t.deref = .ok u ∧ ∀ other, unbox other t = .ok (u, boxed) := by
  cases t with
  | ref m t =>
    cases t with
    | ref => cases h
    | _ =>
      cases h
      exact ⟨rfl, fun _ => rfl⟩
  | _ =>
    cases h
    exact ⟨rfl, fun _ => rfl⟩

theorem exists_recordPlaces (h : ∀ t ∈ ts, t.isConcrete = true) :
    ∃ places, Registry.recordPlaces ts = .ok places := by
  have hsizes : ∃ ns, ts.mapM MoveType.stackSize = .ok ns := by
    induction ts with
    | nil => exact ⟨[], rfl⟩
    | cons t ts ih =>
      obtain ⟨ht, hts⟩ := forall_mem_cons.1 h
      obtain ⟨n, hn⟩ := MoveType.exists_stackSize ht
      obtain ⟨ns, hns⟩ := ih hts
      exact ⟨n :: ns, by rw [mapM_cons, hn, hns]; rfl⟩
  obtain ⟨ns, hns⟩ := hsizes
  exact ⟨_, by rw [Registry.recordPlaces, hns]; rfl⟩

/-! ## Packing -/

section

variable (hr : c.registry.Made)

theorem isConcrete_target (h : t.isConcrete = true) :
    (target t).isConcrete = true := by
  cases t <;> simpa [target] using h

theorem allows_pack (hq : Quiet N O) (ht : t.isConcrete = true)
    (hlisted : ∀ x ∈ packRequests c.registry t, x ∈ N) :
    Allows c N O "pack" (c.registry.shape t) :=
  hq.allows (by decide) ht fun _ hu => hlisted _ (mem_map_of_mem hu)

theorem allows_unpack (hq : Quiet N O) (ht : t.isConcrete = true)
    (hlisted : ∀ x ∈ unpackRequests c.registry t, x ∈ N) :
    Allows c N O "unpack" (c.registry.shape t) :=
  hq.allows (by decide) ht fun _ hu => hlisted _ (mem_map_of_mem hu)

include hr

theorem decides_tupleParts (hq : Quiet N O)
    (hconcrete : ∀ p ∈ ps, p.1.isConcrete = true)
    (hlisted : ∀ p ∈ ps, ∀ x ∈ packRequests c.registry (target p.1), x ∈ N) :
    Verdict (judging c N J) O D (∀ p ∈ ps, Encodable c.registry p.1)
      (tupleParts c ps) := by
  induction ps with
  | nil => exact Decides.congr (.pure (y := []) fun _ h => h) (by simp)
  | cons p ps ih =>
    obtain ⟨t, offset⟩ := p
    obtain ⟨ht, hps⟩ := forall_mem_cons.1 hconcrete
    obtain ⟨hlisted, hrest⟩ := forall_mem_cons.1 hlisted
    rw [tupleParts]
    refine Decides.congr (.lift (U := fun z => (c.registry.shape z.1).Classed c.registry ∧
      ∀ p ∈ ps, Encodable c.registry p.1) (reasoned_unbox .pack t) ?_) ?_
    · rintro ⟨type, boxed⟩ hunbox
      cases target_of_unbox hunbox
      refine .bind (decides_pack hr (allows_pack hq (isConcrete_target ht) hlisted))
        fun hclassed func => ?_
      obtain ⟨n, hn⟩ := hclassed.exists_headSize
      exact .lift_ok hn (.andFinally (ih hps hrest) fun _ _ => .pure fun _ h => h)
    · rw [forall_mem_cons]
      constructor
      · rintro ⟨⟨type, boxed⟩, hunbox, hclassed, hothers⟩
        exact ⟨⟨type, boxed, hunbox, hclassed⟩, hothers⟩
      · rintro ⟨⟨type, boxed, hunbox, hclassed⟩, hothers⟩
        exact ⟨(type, boxed), hunbox, hclassed, hothers⟩

omit hr in
theorem Quiet.insert (hN : ∀ x ∈ routines, x ∈ N) {kind : String} (hkind : kind ∈ outerKinds)
    (ts : List MoveType) : Quiet N (insert ⟨kind, ts⟩ ∅) := by
  refine ⟨hN, fun x hx => ?_⟩
  rcases hx with rfl | hx
  · exact hkind
  · cases hx

/-- The function that packs a tuple is generated if all its types can be packed. -/
theorem decides_packValues (hN : ∀ x ∈ routines, x ∈ N)
    (hlisted : ∀ x ∈ packValuesRequests c.registry ts, x ∈ N)
    (hjudged : ⟨"pack_values", ts⟩ ∈ J ∨ ∀ t ∈ ts, Encodable c.registry t) :
    Verdict (judging c N J) ∅ ∅
      ((∀ t ∈ ts, t.isConcrete = true) ∧ ∀ t ∈ ts, Encodable c.registry t) (packValues c ts) := by
  refine Decides.congr (.lift (U := fun _ => (∀ t ∈ ts, t.isConcrete = true) ∧
    ∀ t ∈ ts, Encodable c.registry t) (Registry.reasoned_recordPlaces ts) ?_) ?_
  · rintro ⟨offsets, size⟩ hplaces
    have hlength := length_recordPlaces hplaces
    refine Decides.request (x := ⟨"pack_values", ts⟩) (hlisted _ (by simp [packValuesRequests]))
      (fun _ => Set.notMem_empty _) ?_ fun hconcrete _ hD => ?_
    · exact ⟨fun h => hjudged.elim h id, fun h _ => h⟩
    · refine Decides.congr (.andFinally (decides_tupleParts hr (Quiet.insert hN (by decide) ts) ?_ ?_)
        fun _ _ => Supplies.define_pure hD rfl rfl) (forall_mem_zip hlength)
      · exact (forall_mem_zip hlength).2 hconcrete
      · refine (forall_mem_zip (p := fun t => ∀ x ∈ packRequests c.registry (target t), x ∈ N)
          hlength).2 fun t ht x hx => hlisted x ?_
        exact mem_cons_of_mem _ (mem_flatMap.2 ⟨t, ht, hx⟩)
  · constructor
    · rintro ⟨_, -, h⟩
      exact h
    · intro h
      obtain ⟨places, hplaces⟩ := exists_recordPlaces h.1
      exact ⟨places, hplaces, h⟩

/-! ## Unpacking -/

omit hr in
theorem sourceRequests_value {r : Registry} (h : ¬ (r.shape t).isObject = true) :
    sourceRequests r t = unpackRequests r t := by
  unfold sourceRequests
  split
  · rw [if_neg h]
  · rfl

/-- The source of a parameter is generated if there is one. -/
theorem decides_sourceOf (hq : Quiet N O)
    (ht : t.isConcrete = true) (hlisted : ∀ x ∈ sourceRequests c.registry t, x ∈ N) :
    Verdict (judging c N J) O D (Obtainable c.registry t) (sourceOf c t) := by
  unfold Obtainable
  by_cases hsigner : t = .signer
  · rw [sourceOf, if_pos hsigner]
    exact Decides.congr (.pure fun _ h => h) (by simp [hsigner])
  by_cases hcontext : c.registry.tagOf t = .txContext
  · rw [sourceOf, if_neg hsigner, if_pos hcontext]
    exact Decides.congr (.pure fun _ h => h) (by simp [hcontext])
  rw [or_iff_right hsigner, or_iff_right hcontext]
  split_ifs with hobject
  · obtain ⟨id, args, rfl⟩ := exists_struct_of_isObject hobject
    rw [sourceRequests, if_pos hobject] at hlisted
    simp only [sourceOf, if_neg hsigner, if_neg hcontext, if_pos hobject]
    exact .andFinally (Storage.decides_load hr hq (MoveType.isConcrete_struct.1 ht) hlisted)
      fun _ _ => .pure fun _ h => h
  · rw [sourceRequests_value hobject] at hlisted
    rw [sourceOf_value hsigner hcontext hobject]
    refine .andFinally (decides_unpack hr (allows_unpack hq ht hlisted)) fun hdecodable _ => ?_
    obtain ⟨n, hn⟩ := hdecodable.1.exists_headSize
    exact .lift_ok hn (.pure fun _ h => h)

theorem decides_callParams (hq : Quiet N O)
    (hconcrete : ∀ p ∈ ps, p.1.isConcrete = true)
    (hlisted : ∀ p ∈ ps, ∀ x ∈ sourceRequests c.registry (target p.1), x ∈ N) (i : Nat) :
    Decides (judging c N J) (Underway (judging c N J) O D) (∀ p ∈ ps, Acceptable c.registry p.1)
      (callParams c i ps) fun params a =>
        (params.length = ps.length ∧ ∀ q ∈ params, q.type.isConcrete = true) ∧
          Underway (judging c N J) O D a := by
  induction ps generalizing i with
  | nil => exact Decides.congr (.pure (y := []) fun _ h => ⟨⟨rfl, nofun⟩, h⟩) (by simp)
  | cons p ps ih =>
    obtain ⟨t, offset⟩ := p
    obtain ⟨ht, hps⟩ := forall_mem_cons.1 hconcrete
    obtain ⟨hlisted, hrest⟩ := forall_mem_cons.1 hlisted
    rw [callParams]
    refine Decides.congr (.lift (U := fun z => Obtainable c.registry z.1 ∧
      ∀ p ∈ ps, Acceptable c.registry p.1) (reasoned_unbox .unpack t) ?_) ?_
    · rintro ⟨type, boxed⟩ hunbox
      cases target_of_unbox hunbox
      refine .bind (.under (decides_sourceOf hr hq (isConcrete_target ht) hlisted))
        fun _ source => .andFinally (ih hps hrest (i + 1)) fun _ params => .pure ?_
      rintro a ⟨⟨hlength, hparams⟩, ha⟩
      exact ⟨⟨by simp [hlength], forall_mem_cons.2 ⟨isConcrete_target ht, hparams⟩⟩, ha⟩
    · rw [forall_mem_cons]
      constructor
      · rintro ⟨⟨type, boxed⟩, hunbox, hsource, hothers⟩
        exact ⟨⟨type, boxed, hunbox, hsource⟩, hothers⟩
      · rintro ⟨⟨type, boxed, hunbox, hsource⟩, hothers⟩
        exact ⟨(type, boxed), hunbox, hsource, hothers⟩

omit hr in
theorem pieces_fetch (p : Param) (v : UInt32) : Storage.Pieces c N J O D 2 (fetch c p v) := by
  unfold fetch
  split
  · exact .andThen (Storage.succeeds_importHost _) fun _ => .pure fun _ h => ⟨le_rfl, h⟩
  all_goals exact .pure fun _ h => ⟨Nat.le_of_ble_eq_true rfl, h⟩

omit hr in
theorem pieces_fetchAll {params : List Param} (h : ∀ q ∈ params, q.type.isConcrete = true)
    (v : UInt32) : Storage.Pieces c N J O D (3 * params.length) (fetchAll c v params) := by
  induction params generalizing v with
  | nil => exact .pure fun _ h => ⟨le_rfl, h⟩
  | cons q params ih =>
    obtain ⟨hq, hparams⟩ := forall_mem_cons.1 h
    rw [fetchAll, length_cons]
    refine .andThen (pieces_fetch q v) fun y => .assume fun hy => ?_
    dsimp only
    split
    · obtain ⟨n, hn⟩ := MoveType.exists_stackSize hq
      refine .lift_ok hn (.andThen (ih hparams _) fun z => .assume fun hz =>
        .pure fun _ h => ⟨?_, h⟩)
      simp only [length_append, length_singleton]
      omega
    · refine .andThen (ih hparams _) fun z => .assume fun hz => .pure fun _ h => ⟨?_, h⟩
      simp only [length_append]
      omega

/-- The function that unpacks a tuple is generated if all its types have a source. -/
theorem decides_unpackValues (hN : ∀ x ∈ routines, x ∈ N) (hlisted : ∀ x ∈ unpackValuesRequests c.registry ts, x ∈ N)
    (hjudged : ⟨"unpack_values", ts⟩ ∈ J ∨ ∀ t ∈ ts, Acceptable c.registry t) :
    Verdict (judging c N J) ∅ ∅
      ((∀ t ∈ ts, t.isConcrete = true) ∧ ∀ t ∈ ts, Acceptable c.registry t) (unpackValues c ts) := by
  refine Decides.congr (.lift (U := fun _ => (∀ t ∈ ts, t.isConcrete = true) ∧
    ∀ t ∈ ts, Acceptable c.registry t) (Registry.reasoned_recordPlaces ts) ?_) ?_
  · rintro ⟨offsets, size⟩ hplaces
    have hlength := length_recordPlaces hplaces
    refine Decides.request (x := ⟨"unpack_values", ts⟩)
      (hlisted _ (by simp [unpackValuesRequests])) (fun _ => Set.notMem_empty _) ?_
      fun hconcrete _ hD => ?_
    · exact ⟨fun h => hjudged.elim h id, fun h _ => h⟩
    · have hparams := decides_callParams (J := J) (D := ∅) hr
        (Quiet.insert hN (by decide : "unpack_values" ∈ outerKinds) ts)
        ((forall_mem_zip hlength).2 hconcrete)
        ((forall_mem_zip (p := fun t => ∀ x ∈ sourceRequests c.registry (target t), x ∈ N)
          hlength).2 fun t ht x hx => hlisted x
            (mem_cons_of_mem _ (mem_flatMap.2 ⟨t, ht, hx⟩))) 0
      refine Decides.congr (.andFinally hparams fun _ params => ?_) (forall_mem_zip hlength)
      refine .assume fun hparams => Supplies.define hD rfl (.andThen (pieces_fetchAll hparams.2 2)
        fun y => .assume fun hy => .pure fun _ h => ⟨fun hS => ?_, h⟩)
      have hsize := hS.sized.2 ⟨"unpack_values", ts⟩ (hlisted _ (by simp [unpackValuesRequests]))
      have hcount : params.length = ts.length := by
        rw [hparams.1, length_zip, ← hlength, min_self]
      rw [hcount] at hy
      simp only [length_cons] at hsize ⊢
      omega
  · constructor
    · rintro ⟨_, -, h⟩
      exact h
    · intro h
      obtain ⟨places, hplaces⟩ := exists_recordPlaces h.1
      exact ⟨places, hplaces, h⟩

/-! ## Errors and events -/

structure Revertible (c : Context) (d : StructDef) : Prop where
  role : checkRole d .error "an error" = .ok ()
  fields : ∃ fields, payloadFields c d = .ok fields
  signature : ∃ signature, c.registry.payloadSignature d = .ok signature
  encodable : PayloadEncodable c.registry d.type

/-- The indexed fields of an event are there, and each of them fits into a topic. -/
def Indexable (r : Registry) (d : StructDef) (fields : List (MoveType × UInt32)) : Prop :=
  ¬ (d.indexed < 0 ∨ Registry.maxIndexed < d.indexed ∨ fields.length < d.indexed) ∧
    checkTopics r d ((fields.take d.indexed.toNat).map (·.1)) = .ok ()

/-- The event can be emitted. -/
structure Emittable (c : Context) (d : StructDef) : Prop where
  role : checkRole d .event "an event" = .ok ()
  fields : ∃ fields, payloadFields c d = .ok fields ∧ Indexable c.registry d fields
  signature : ∃ signature, c.registry.payloadSignature d = .ok signature
  encodable : PayloadEncodable c.registry d.type

omit hr in
theorem payloadFields_eq_ok
    (h : payloadFields c d = .ok fields) :
    ∃ fs, c.registry.fields d.id [] = .ok fs ∧ fields.map (·.1) = fs.map (·.type) := by
  obtain ⟨ts, hts, h⟩ := bind_eq_ok h
  obtain ⟨⟨offsets, size⟩, hplaces, h⟩ := bind_eq_ok h
  cases h
  unfold Registry.payloadTypes at hts
  split at hts
  · cases hts
  obtain ⟨fs, hfs, hts⟩ := bind_eq_ok hts
  cases hts
  obtain ⟨fs', hfs', hplaces⟩ := bind_eq_ok hplaces
  cases hfs.symm.trans hfs'
  obtain ⟨ns, hns, heq⟩ := Shape.map_eq_ok hplaces
  refine ⟨fs, hfs, map_fst_zip ?_⟩
  rw [(Prod.mk.inj heq).1, Registry.length_placeFrom, length_map, (mapM_eq_ok.1 hns).length_eq]

/-- What the parts of a payload are judged by. -/
theorem payload_facts
    (h : payloadFields c d = .ok fields) (hlisted : ∀ x ∈ payloadRequests c.registry d, x ∈ N) :
    (∀ p ∈ fields, p.1.isConcrete = true) ∧
      (∀ p ∈ fields, ∀ x ∈ packRequests c.registry (target p.1), x ∈ N) ∧
      ((∀ p ∈ fields, Encodable c.registry p.1) ↔ PayloadEncodable c.registry d.type) := by
  obtain ⟨fs, hfs, htypes⟩ := payloadFields_eq_ok h
  have hmem (q : MoveType → Prop) : (∀ p ∈ fields, q p.1) ↔ ∀ f ∈ fs, q f.type := by
    rw [← forall_mem_map (f := Prod.fst), htypes, forall_mem_map]
  obtain ⟨d', hd', hinst⟩ := bind_eq_ok hfs
  refine ⟨(hmem (·.isConcrete = true)).2 (hr.isConcrete_of_instantiate hd' nofun hinst),
    (hmem fun t => ∀ x ∈ packRequests c.registry (target t), x ∈ N).2 fun f hf x hx => ?_, ?_⟩
  · refine hlisted x ?_
    rw [payloadRequests, hfs]
    exact mem_flatMap.2 ⟨f, hf, hx⟩
  · rw [hmem (Encodable c.registry)]
    constructor
    · rintro h id args fs' heq hfs'
      cases heq
      cases hfs.symm.trans hfs'
      exact h
    · exact fun h => h d.id [] fs rfl hfs

/-- The function for the payload of an error is generated if the payload can be made. -/
theorem decides_revert (hN : ∀ x ∈ routines, x ∈ N)
    (hlisted : ∀ x ∈ revertRequests c.registry d, x ∈ N)
    (hjudged : ⟨"revert", [d.type]⟩ ∈ J ∨ PayloadEncodable c.registry d.type) :
    Verdict (judging c N J) ∅ ∅ (Revertible c d) (revert c d) := by
  refine Decides.congr (.lift (reasoned_checkRole _ _ _) fun _ hrole =>
    .lift (reasoned_payloadFields c d) fun fields hfields =>
      .lift (U := fun _ => (∀ t ∈ [d.type], t.isConcrete = true) ∧
        PayloadEncodable c.registry d.type) (Registry.reasoned_payloadSignature d)
          fun signature hsignature => ?_) ?_
  · obtain ⟨hconcrete, hpack, hencodable⟩ := payload_facts hr hfields
      fun x hx => hlisted x (by simp [revertRequests, hx])
    refine Decides.request (x := ⟨"revert", [d.type]⟩) (hlisted _ (by simp [revertRequests]))
      (fun _ => Set.notMem_empty _) ?_ fun _ _ hD => ?_
    · refine ⟨fun h => hjudged.elim (fun hJ => ?_) id, fun h _ => ?_⟩
      · exact h hJ d.type (by simp)
      · exact fun t ht => mem_singleton.1 ht ▸ h
    · exact Decides.congr (.andFinally (.under (decides_tupleParts hr
        (Quiet.insert hN (by decide) [d.type]) hconcrete hpack)) fun _ _ =>
          Supplies.define_pure hD rfl rfl) hencodable
  · constructor
    · rintro ⟨⟨⟩, hrole, fields, hfields, signature, hsignature, -, hencodable⟩
      exact ⟨hrole, ⟨fields, hfields⟩, ⟨signature, hsignature⟩, hencodable⟩
    · rintro ⟨hrole, ⟨fields, hfields⟩, ⟨signature, hsignature⟩, hencodable⟩
      exact ⟨(), hrole, fields, hfields, signature, hsignature,
        by simp [StructDef.type, MoveType.isConcrete_struct], hencodable⟩

theorem decides_raise (hN : ∀ x ∈ routines, x ∈ N)
    (hlisted : ∀ x ∈ revertRequests c.registry d, x ∈ N)
    (hjudged : ⟨"revert", [d.type]⟩ ∈ J ∨ PayloadEncodable c.registry d.type) :
    Verdict (judging c N J) ∅ ∅ (Revertible c d) (raise c d) := by
  refine .andFinally (decides_revert hr hN hlisted hjudged) fun _ _ =>
    .andThen (Storage.succeeds_importHost _) fun _ => ?_
  exact Succeeds.request (x := ⟨"raise", [d.type]⟩) (hlisted _ (by simp [revertRequests]))
    (Set.notMem_empty _) (by simp [StructDef.type, MoveType.isConcrete_struct]) trivial
    fun hD => Supplies.define_pure hD rfl rfl

/-- The function that emits an event is generated if the event can be emitted. -/
theorem decides_emit (hN : ∀ x ∈ routines, x ∈ N)
    (hlisted : ∀ x ∈ emitRequests c.registry d, x ∈ N)
    (hjudged : ⟨"emit", [d.type]⟩ ∈ J ∨ PayloadEncodable c.registry d.type) :
    Verdict (judging c N J) ∅ ∅ (Emittable c d) (emit c d) := by
  refine Decides.congr (.lift (reasoned_checkRole _ _ _) fun _ hrole => .lift (U := fun fields =>
    Indexable c.registry d fields ∧ (∃ signature, c.registry.payloadSignature d = .ok signature) ∧
      PayloadEncodable c.registry d.type) (reasoned_payloadFields c d) fun fields hfields => ?_) ?_
  · obtain ⟨hconcrete, hpack, hencodable⟩ := payload_facts hr hfields
      fun x hx => hlisted x (by simp [emitRequests, hx])
    split
    · rename_i hindexed
      exact Decides.congr (Decides.throw rfl) (by simp [Indexable, hindexed])
    · rename_i hindexed
      refine Decides.congr (.lift (reasoned_checkTopics _ _ _) fun _ htopics =>
        .lift (U := fun _ => (∀ t ∈ [d.type], t.isConcrete = true) ∧
          PayloadEncodable c.registry d.type) (Registry.reasoned_payloadSignature d)
            fun signature hsignature => .andThen (Storage.succeeds_importHost _) fun log => ?_) ?_
      · refine Decides.request (x := ⟨"emit", [d.type]⟩) (hlisted _ (by simp [emitRequests]))
          (fun _ => Set.notMem_empty _) ?_ fun _ _ hD => ?_
        · refine ⟨fun h => hjudged.elim (fun hJ => ?_) id, fun h _ => ?_⟩
          · exact h hJ d.type (by simp)
          · exact fun t ht => mem_singleton.1 ht ▸ h
        · have hparts (ps : List (MoveType × UInt32)) (hps : ∀ p ∈ ps, p ∈ fields) :=
            decides_tupleParts (J := J) (D := ∅) hr
              (Quiet.insert hN (by decide : "emit" ∈ outerKinds) [d.type])
              (fun p hp => hconcrete p (hps p hp)) fun p hp => hpack p (hps p hp)
          refine Decides.congr (.bind (.under (hparts _ fun p => mem_of_mem_take))
            fun _ topics => .andFinally (.under (hparts _ fun p => mem_of_mem_drop))
              fun _ data => Supplies.define_pure hD rfl rfl) ?_
          rw [← forall_mem_append, take_append_drop, hencodable]
      · constructor
        · rintro ⟨⟨⟩, htopics, signature, hsignature, -, h⟩
          exact ⟨⟨hindexed, htopics⟩, ⟨signature, hsignature⟩, h⟩
        · rintro ⟨⟨-, htopics⟩, ⟨signature, hsignature⟩, h⟩
          exact ⟨(), htopics, signature, hsignature,
            by simp [StructDef.type, MoveType.isConcrete_struct], h⟩
  · constructor
    · rintro ⟨⟨⟩, hrole, fields, hfields, hindexed, hsignature, h⟩
      exact ⟨hrole, ⟨fields, hfields, hindexed⟩, hsignature, h⟩
    · rintro ⟨hrole, ⟨fields, hfields, hindexed⟩, hsignature, h⟩
      exact ⟨(), hrole, fields, hfields, hindexed, hsignature, h⟩

end

end MoveCodec.Codec
