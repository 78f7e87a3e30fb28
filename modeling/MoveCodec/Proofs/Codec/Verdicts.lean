import MoveCodec.Proofs.Assembly.Verdicts
import MoveCodec.Proofs.Codec.Generators
import MoveCodec.Proofs.Types.Concrete
import MoveCodec.Proofs.Wire.Acceptance

/-!
# Which packers and unpackers are generated

A packer is generated for every concrete type that has a class, and an unpacker if in addition
nothing in the type comes from storage. What is being generated meanwhile does not matter as long as
it is for larger types: the form of a type has those of its parts inside it.
-/
namespace MoveCodec

open List

variable {code : Code} {fs : Forms} {gen : Bool → String → Generate FuncId} {locals : List ValType}
  {name kind : String} {t : MoveType} {s : Shape} {r : Registry} {rest : FieldShapes}

variable {ts args : List MoveType} {x : Request} {params results : List ValType}

mutual

/-- The types of a shape and of all shapes inside it. -/
def Shape.components : Shape → List MoveType
  | .vector e => .vector e.type :: e.components
  | .struct d args fields => .struct d.id args :: fields.components
  | s => [s.type]

def FieldShapes.components : FieldShapes → List MoveType
  | .nil => []
  | .cons _ s rest => s.components ++ rest.components

end

theorem HaveForms.exists_form (h : HaveForms r ts fs) (ht : t ∈ ts) : ∃ f, HasForm r t f := by
  induction ts generalizing fs with
  | nil => cases ht
  | cons t' ts ih =>
    cases h with
    | cons hf hfs =>
      rcases mem_cons.1 ht with rfl | ht
      · exact ⟨_, hf⟩
      · exact ih hfs ht

/-- The forms of fields are smaller than that of their struct. -/
theorem HaveForms.sizeOf_lt (h : HaveForms r ts fs) {f : Form} (ht : t ∈ ts) (hf : HasForm r t f) :
    sizeOf f < sizeOf fs := by
  induction ts generalizing fs with
  | nil => cases ht
  | cons t' ts ih =>
    cases h with
    | cons hf' hfs =>
      rw [Forms.cons.sizeOf_spec]
      rcases mem_cons.1 ht with rfl | ht
      · cases hf.unique hf'
        omega
      · have := ih hfs ht
        omega

theorem FieldShapes.exists_layout {fields : FieldShapes}
    (h : ∀ t ∈ fields.types, t.isConcrete = true) : ∃ places, fields.layout = .ok places := by
  have hsizes : ∃ ns, fields.toList.mapM (fun x => within x.1 x.2.type.stackSize) = .ok ns := by
    induction hlist : fields.toList generalizing fields with
    | nil => exact ⟨[], rfl⟩
    | cons x xs ih =>
      cases fields with
      | nil => cases hlist
      | cons name s rest =>
        cases hlist
        rw [FieldShapes.types, forall_mem_cons] at h
        obtain ⟨n, hn⟩ := MoveType.exists_stackSize h.1
        obtain ⟨ns, hns⟩ := ih h.2 rfl
        refine ⟨n :: ns, ?_⟩
        rw [mapM_cons, hns]
        simp only [hn]
        rfl
  obtain ⟨ns, hns⟩ := hsizes
  exact ⟨_, congrArg (Functor.map (Registry.placeFrom 0)) hns⟩

theorem Shape.type_mem_components (s : Shape) : s.type ∈ s.components := by
  cases s <;> simp [Shape.components, Shape.type]

namespace Codec

open Wasm Wasm.Emit Assembly Prelude Machine

/-! ## Acceptance -/

/-- The value of a type, or what a reference of the type points to, can be packed. -/
def Encodable (r : Registry) (t : MoveType) : Prop :=
  ∃ u boxed, unbox .pack t = .ok (u, boxed) ∧ (r.shape u).Classed r

/-- Values of the type can be rebuilt from call data. -/
def Decodable (r : Registry) (t : MoveType) : Prop :=
  (r.shape t).Classed r ∧ (r.shape t).checkDecodable = .ok ()

/-- Objects of the type can be stored. -/
def Storable (r : Registry) (t : MoveType) : Prop :=
  ∃ id args d cells fields, t = .struct id args ∧ r.requireObject id args = .ok d ∧
    r.storageLayout id args = .ok cells ∧ r.fieldShapes id args = .ok fields

/-- Parameters of the type have a source. -/
def Obtainable (r : Registry) (t : MoveType) : Prop :=
  t = .signer ∨ r.tagOf t = .txContext ∨
    if (r.shape t).isObject then Storable r t else Decodable r t

def Acceptable (r : Registry) (t : MoveType) : Prop :=
  ∃ u boxed, unbox .unpack t = .ok (u, boxed) ∧ Obtainable r u

/-- All fields of a struct type can be packed. -/
def PayloadEncodable (r : Registry) (t : MoveType) : Prop :=
  ∀ id args fs, t = .struct id args → r.fields id args = .ok fs → ∀ f ∈ fs, Encodable r f.type

/-- What is known of a request that was answered. -/
def accepted (r : Registry) (x : Request) : Prop :=
  match x.kind with
  | "pack_values" => ∀ t ∈ x.args, Encodable r t
  | "unpack_values" => ∀ t ∈ x.args, Acceptable r t
  | "revert" | "emit" => ∀ t ∈ x.args, PayloadEncodable r t
  | _ => True

structure Sized (r : Registry) : Prop where
  variants : ∀ d ∈ r.enums, d.variants.length < UInt32.size
  fields : ∀ d ∈ r.structs, 4 * d.fields.length + 16 ≤ UInt32.size

theorem Sized.lt_of_enumOf (h : Sized r) {id : DefId} {d : EnumDef}
    (hd : r.enumOf id args = .ok d) : d.variants.length < UInt32.size :=
  h.variants _ (mem_of_find?_eq_some (Registry.enumOf_eq_ok.1 hd).1)

/-- Requests of the codec are judged by what they accept, as far as they are in `J`. -/
def judging (c : Context) (N J : Set Request) : Setting :=
  ⟨c.options.host, N, fun x => x ∈ J → accepted c.registry x,
    Sized c.registry ∧ ∀ x ∈ N, 4 * x.args.length + 16 ≤ UInt32.size⟩

variable {c : Context} {N J O D : Set Request} {α β : Type}

/-- The generator succeeds while the requests of `O` are open. -/
abbrev Succeeds (c : Context) (N J O D : Set Request) (g : Generate α) : Prop :=
  Verdict (judging c N J) O D True g

/-- The generator makes the function of an open request. -/
abbrev Supplies (c : Context) (N J O D : Set Request) (x : Request) (g : Generate FuncId) : Prop :=
  Decides (judging c N J) (Underway (judging c N J) O D) True g (Decides.Answer (judging c N J) O D x)

/-- A request that can be answered if its generator makes the function. -/
theorem Succeeds.request {gen : String → Generate FuncId} (hx : x ∈ N) (hO : x ∉ O)
    (hargs : ∀ t ∈ x.args, t.isConcrete = true) (hacc : accepted c.registry x)
    (h : x ∉ D → Supplies c N J (insert x O) D x (gen x.symbol)) :
    Succeeds c N J O D (request x.kind x.args gen) :=
  (Decides.request hx (fun _ => hO) (iff_of_true (fun _ => hacc) trivial) fun _ _ hD => h hD).congr
    (by simpa using hargs)

theorem Supplies.define
    {body : Generate (List ValType × Code)} (hx : x ∉ D) (hparams : decide (params.length ≤ 8) = true)
    (h : Decides (judging c N J) (Underway (judging c N J) (insert x O) (insert x D)) True body
      (Decides.Body (judging c N J) (insert x O) (insert x D))) :
    Supplies c N J (insert x O) D x (define x.symbol params results body) :=
  Decides.define (Set.mem_insert _ _) hx (of_decide_eq_true hparams) h

theorem Supplies.define_pure
    (hx : x ∉ D) (hparams : decide (params.length ≤ 8) = true)
    (hlocals : decide (locals.length + 8 < UInt32.size) = true) :
    Supplies c N J (insert x O) D x
      (Assembly.define x.symbol params results (pure (locals, code))) :=
  .define hx hparams (.body hlocals)

/-! ## Routines -/

def routines : List Request :=
  ["swap_i32", "swap_i64", "swap_bytes_16", "swap_bytes_32", "assert_zero", "add_u256",
   "storage_next_slot", "equal_bytes32", "write_object_slot", "locate_object"].map (⟨·, []⟩)

/-- Routines can be requested, and none is being generated. -/
def Free (N O : Set Request) : Prop := ∀ x ∈ routines, x ∈ N ∧ x ∉ O

theorem Free.insert (h : Free N O) (hx : x ∉ routines) : Free N (insert x O) := by
  intro y hy
  refine ⟨(h y hy).1, fun hmem => ?_⟩
  rcases hmem with rfl | hmem
  · exact hx hy
  · exact (h y hy).2 hmem

theorem not_mem_routines : (⟨kind, t :: ts⟩ : Request) ∉ routines := by
  simp [routines]

theorem succeeds_routine (h : Free N O) (hx : x ∈ routines)
    (hparams : decide (params.length ≤ 8) = true)
    (hlocals : decide (locals.length + 8 < UInt32.size) = true) :
    Succeeds c N J O D (request x.kind x.args fun name =>
      define name params results (pure (locals, code))) := by
  refine .request (h x hx).1 (h x hx).2 ?_ ?_ fun hD => .define_pure hD hparams hlocals
  · simp only [routines, map_cons, map_nil, mem_cons, not_mem_nil,
      or_false] at hx
    rcases hx with rfl | rfl | rfl | rfl | rfl | rfl | rfl | rfl | rfl | rfl <;> simp
  · simp only [routines, map_cons, map_nil, mem_cons, not_mem_nil,
      or_false] at hx
    rcases hx with rfl | rfl | rfl | rfl | rfl | rfl | rfl | rfl | rfl | rfl <;> trivial

def outerKinds : List String := ["pack_values", "unpack_values", "revert", "emit"]

/-- Routines can be requested, and no function for a single type is being generated. -/
structure Quiet (N O : Set Request) : Prop where
  listed : ∀ x ∈ routines, x ∈ N
  outer : ∀ x ∈ O, x.kind ∈ outerKinds

theorem Quiet.not_mem (h : Quiet N O) (hkind : kind ∉ outerKinds) : ⟨kind, args⟩ ∉ O :=
  fun hO => hkind (h.outer _ hO)

theorem Quiet.free (h : Quiet N O) : Free N O := by
  intro x hx
  refine ⟨h.listed x hx, ?_⟩
  obtain ⟨kind, hkind, rfl⟩ := mem_map.1 hx
  refine h.not_mem ?_
  revert kind
  decide

section

variable (h : Free N O)

include h

theorem succeeds_swap32 : Succeeds c N J O D swap32 :=
  succeeds_routine h (x := ⟨"swap_i32", []⟩) (by simp [routines]) rfl rfl

theorem succeeds_swap64 : Succeeds c N J O D swap64 :=
  .andThen (succeeds_swap32 h) fun _ =>
    succeeds_routine h (x := ⟨"swap_i64", []⟩) (by simp [routines]) rfl rfl

theorem succeeds_reverseBlock16 : Succeeds c N J O D (reverseBlock 16) :=
  .andThen (succeeds_swap64 h) fun _ =>
    succeeds_routine h (x := ⟨"swap_bytes_16", []⟩) (by simp [routines]) rfl rfl

theorem succeeds_reverseBlock32 : Succeeds c N J O D (reverseBlock 32) :=
  .andThen (succeeds_swap64 h) fun _ =>
    succeeds_routine h (x := ⟨"swap_bytes_32", []⟩) (by simp [routines]) rfl rfl

theorem succeeds_requireZero : Succeeds c N J O D requireZero :=
  succeeds_routine h (x := ⟨"assert_zero", []⟩) (by simp [routines]) rfl rfl

theorem succeeds_checkZero (src offset n : UInt32) :
    Succeeds c N J O D (checkZero src offset n) := by
  unfold checkZero
  split
  · exact .pure fun _ h => h
  · exact .andThen (succeeds_requireZero h) fun _ => .pure fun _ h => h

theorem succeeds_checkedWord (src offset width : UInt32) :
    Succeeds c N J O D (checkedWord src offset width) :=
  .andThen (succeeds_swap32 h) fun _ => .andThen (succeeds_requireZero h) fun _ =>
    .pure fun _ h => h

end

/-! ## Open requests -/

def Outer (r : Registry) (kind : String) (O : Set Request) (t : MoveType) : Prop :=
  ∀ u f g, ⟨kind, [u]⟩ ∈ O → HasForm r u g → HasForm r t f → sizeOf f < sizeOf g

section

variable {r : Registry} {kind : String} {t u : MoveType} {f g : Form}

theorem Outer.not_mem (h : Outer r kind O t) (hf : HasForm r t f) : ⟨kind, [t]⟩ ∉ O :=
  fun hmem => lt_irrefl _ (h t f f hmem hf hf)

/-- While a type is under way, its parts can be requested. -/
theorem Outer.insert (h : Outer r kind O t) (hf : HasForm r t f) (hg : HasForm r u g)
    (hlt : sizeOf g < sizeOf f) : Outer r kind (insert ⟨kind, [t]⟩ O) u := by
  intro v g' f' hmem hf' hg'
  cases hg.unique hg'
  rcases hmem with hsame | hmem
  · cases hsame
    cases hf.unique hf'
    exact hlt
  · exact hlt.trans (h v f f' hmem hf' hf)

end

structure Allows (c : Context) (N O : Set Request) (kind : String) (s : Shape) : Prop where
  follows : s.Follows c.registry
  concrete : s.type.isConcrete = true
  listed : ∀ u ∈ s.components, ⟨kind, [u]⟩ ∈ N
  free : Free N O
  outer : Outer c.registry kind O s.type

structure AllowsAll (c : Context) (N O : Set Request) (kind : String) (fields : FieldShapes) :
    Prop where
  follow : fields.Follow c.registry
  concrete : ∀ t ∈ fields.types, t.isConcrete = true
  listed : ∀ u ∈ fields.components, ⟨kind, [u]⟩ ∈ N
  free : Free N O
  outer : ∀ t ∈ fields.types, Outer c.registry kind O t

section

variable {kind : String} {s : Shape} {f : Form}

theorem Quiet.allows (h : Quiet N O) (hkind : kind ∉ outerKinds) (ht : t.isConcrete = true)
    (hlisted : ∀ u ∈ (c.registry.shape t).components, ⟨kind, [u]⟩ ∈ N) :
    Allows c N O kind (c.registry.shape t) where
  follows := Shape.follows_shape t
  concrete := by rwa [Shape.type_shape]
  listed := hlisted
  free := h.free
  outer u f g hmem := absurd hmem (h.not_mem hkind)

theorem Allows.mem (h : Allows c N O kind s) : ⟨kind, [s.type]⟩ ∈ N :=
  h.listed _ (Shape.type_mem_components s)

theorem Allows.not_mem (h : Allows c N O kind s) (hf : HasForm c.registry s.type f) :
    ⟨kind, [s.type]⟩ ∉ O :=
  h.outer.not_mem hf

theorem Allows.elem (h : Allows c N O kind (.vector s))
    (hf : HasForm c.registry (.vector s.type) f) :
    Allows c N (insert ⟨kind, [.vector s.type]⟩ O) kind s := by
  cases hf with
  | vector hg =>
    refine ⟨h.follows, by simpa [Shape.type] using h.concrete,
      fun u hu => h.listed u (by simp [Shape.components, hu]), h.free.insert not_mem_routines,
      h.outer.insert (.vector hg) hg (by simp)⟩

theorem Allows.fields (hr : c.registry.Made) {d : StructDef}
    {fields : FieldShapes} (h : Allows c N O kind (.struct d args fields))
    (hf : HasForm c.registry (.struct d.id args) f) :
    AllowsAll c N (insert ⟨kind, [.struct d.id args]⟩ O) kind fields := by
  obtain ⟨fs, rfl, hfs⟩ := Shape.fields_of_struct h.follows hf
  obtain ⟨hd, -, ⟨gs, hgs, htypes⟩, hfollow, -⟩ := h.follows
  refine ⟨hfollow, fun t ht => ?_, fun u hu => h.listed u (by simp [Shape.components, hu]),
    h.free.insert not_mem_routines, fun t ht => ?_⟩
  · rw [htypes] at ht
    obtain ⟨g, hg, rfl⟩ := mem_map.1 ht
    exact hr.isConcrete_of_instantiate hd (MoveType.isConcrete_struct.1 h.concrete) hgs g hg
  · obtain ⟨g, hg⟩ := hfs.exists_form ht
    refine h.outer.insert hf hg ?_
    have := hfs.sizeOf_lt ht hg
    rw [Form.struct.sizeOf_spec]
    omega

theorem AllowsAll.head (h : AllowsAll c N O kind (.cons name s rest)) : Allows c N O kind s :=
  ⟨h.follow.1, h.concrete _ (by simp [FieldShapes.types]),
    fun u hu => h.listed u (by simp [FieldShapes.components, hu]), h.free,
    h.outer _ (by simp [FieldShapes.types])⟩

theorem AllowsAll.tail (h : AllowsAll c N O kind (.cons name s rest)) : AllowsAll c N O kind rest :=
  ⟨h.follow.2, fun t ht => h.concrete t (by simp [FieldShapes.types, ht]),
    fun u hu => h.listed u (by simp [FieldShapes.components, hu]), h.free,
    fun t ht => h.outer t (by simp [FieldShapes.types, ht])⟩

end

/-! ## Packers -/

section

variable (hr : c.registry.Made)

include hr

theorem succeeds_packRequest (hs : s.Classed c.registry) (h : Allows c N O "pack" s)
    (hgen : ∀ b, (⟨"pack", [s.type]⟩ : Request) ∉ D →
      Supplies c N J (insert ⟨"pack", [s.type]⟩ O) D ⟨"pack", [s.type]⟩
        (gen b (Request.symbol ⟨"pack", [s.type]⟩))) :
    Succeeds c N J O D (packRequest c.registry s gen) := by
  obtain ⟨b, hb⟩ := hs.exists_isDynamic
  obtain ⟨f, hf⟩ := hs.exists_form hr h.follows
  refine .lift_ok hb (Succeeds.request (x := ⟨"pack", [s.type]⟩) h.mem (h.not_mem hf) ?_ trivial
    (hgen b))
  simpa using h.concrete

omit hr in
theorem supplies_packWord (h : Free N (insert x O)) (hx : x ∉ D)
    (ht : t = .bool ∨ (∃ w, t = .int w) ∨ t = .address ∨ ∃ id args, t = .enum id args) :
    Supplies c N J (insert x O) D x (packWord x.symbol t) := by
  have hsmall {params : List ValType} (hparams : decide (params.length ≤ 8) = true) :
      Supplies c N J (insert x O) D x
        (define x.symbol params [] do return ([], storeWord (← swap32) 1 0 0)) :=
    .define hx hparams (.andThen (succeeds_swap32 h) fun _ => .body rfl)
  obtain rfl | ⟨w, rfl⟩ | rfl | ⟨id, args, rfl⟩ := ht
  · exact hsmall rfl
  · cases w with
    | w8 => exact hsmall rfl
    | w16 => exact hsmall rfl
    | w32 => exact hsmall rfl
    | w64 => exact .andThen (succeeds_swap64 h) fun _ => Supplies.define_pure hx rfl rfl
    | w128 => exact .andThen (succeeds_reverseBlock16 h) fun _ => Supplies.define_pure hx rfl rfl
    | w256 => exact .andThen (succeeds_reverseBlock32 h) fun _ => Supplies.define_pure hx rfl rfl
  · exact .define_pure hx rfl rfl
  · exact .define hx rfl (.andThen (succeeds_swap32 h) fun _ => .body rfl)

omit hr in
theorem supplies_packTagged (h : Free N (insert x O)) (hx : x ∉ D) (d : StructDef)
    (t : MoveType) : Supplies c N J (insert x O) D x (packTagged x.symbol d t) := by
  unfold packTagged
  split
  · exact .define hx rfl (.andThen (succeeds_swap32 h) fun _ => .body rfl)
  · exact .define_pure hx rfl rfl

theorem succeeds_packLeaf (hs : s.Classed c.registry) (h : Allows c N O "pack" s)
    (ht : s.type = .bool ∨ (∃ w, s.type = .int w) ∨ s.type = .address ∨
      ∃ id args, s.type = .enum id args) :
    Succeeds c N J O D (packRequest c.registry s fun _ name => packWord name s.type) :=
  succeeds_packRequest hr hs h fun _ hD =>
    supplies_packWord (h.free.insert not_mem_routines) hD ht

/-- The packer of a type that has a class is generated. -/
theorem succeeds_packShape (h : s.Classed c.registry) :
    ∀ {O D : Set Request}, Allows c N O "pack" s →
      Succeeds c N J O D (packShape c.registry s) := by
  refine h.inductOn (P := fun s => ∀ {O D : Set Request}, Allows c N O "pack" s →
      Succeeds c N J O D (packShape c.registry s))
    (Q := fun fields => ∀ {O D : Set Request} (owner : String) (offsets : List UInt32),
      AllowsAll c N O "pack" fields →
        Succeeds c N J O D (packFields c.registry owner fields offsets))
    ?bool ?int ?address ?vector ?enum ?tagged ?struct ?nil ?cons
  case bool =>
    intro O D ha
    unfold packShape
    exact succeeds_packLeaf hr .bool ha (.inl rfl)
  case int =>
    intro w O D ha
    unfold packShape
    exact succeeds_packLeaf hr (.int w) ha (.inr (.inl ⟨w, rfl⟩))
  case address =>
    intro O D ha
    unfold packShape
    exact succeeds_packLeaf hr .address ha (.inr (.inr (.inl rfl)))
  case enum =>
    intro d args hsimple O D ha
    unfold packShape
    exact succeeds_packLeaf hr (.enum hsimple) ha (.inr (.inr (.inr ⟨d.id, args, rfl⟩)))
  case tagged =>
    intro d args htag O D ha
    rw [packShape]
    exact succeeds_packRequest hr (.tagged htag) ha fun _ hD =>
      supplies_packTagged (ha.free.insert not_mem_routines) hD d _
  case vector =>
    intro e he ih O D ha
    rw [packShape]
    refine succeeds_packRequest hr (.vector he) ha fun _ hD => ?_
    obtain ⟨f, hf⟩ := (Shape.Classed.vector he).exists_form hr ha.follows
    have hinner := ha.elem hf
    obtain ⟨n, hn⟩ := MoveType.exists_stackSize hinner.concrete
    obtain ⟨m, hm⟩ := he.exists_headSize
    refine .andThen (.under (ih hinner)) fun _ => .lift_ok hn (.lift_ok hm ?_)
    exact Supplies.define hD rfl (.andThen (succeeds_swap32 hinner.free) fun _ => .body rfl)
  case struct =>
    intro d args fields hidentity hfields ih O D ha
    rw [packShape]
    refine succeeds_packRequest hr (.struct hidentity hfields) ha fun dynamic hD => ?_
    obtain ⟨f, hf⟩ := (Shape.Classed.struct hidentity hfields).exists_form hr ha.follows
    have hinner := ha.fields hr hf
    obtain ⟨places, hplaces⟩ := FieldShapes.exists_layout hinner.concrete
    refine .lift_ok hplaces (.andThen (ih d.name places.1 hinner) fun parts => ?_)
    refine Supplies.define hD rfl ?_
    cases dynamic with
    | true => exact .andThen (succeeds_swap32 hinner.free) fun _ => .body rfl
    | false => exact .body rfl
  case nil =>
    intro O D owner offsets _
    unfold packFields
    exact .pure fun _ h => h
  case cons =>
    intro name s rest hs ih _ ihrest O D owner offsets ha
    cases offsets with
    | nil =>
      unfold packFields
      exact .pure fun _ h => h
    | cons offset offsets =>
      rw [packFields]
      obtain ⟨m, hm⟩ := hs.exists_headSize
      refine .andThen (.under (ih ha.head)) fun _ => .lift_ok hm ?_
      exact .andThen (ihrest owner offsets ha.tail) fun _ => .pure fun _ h => h

end

theorem packShape_eq (r : Registry) (s : Shape) : ∃ gen, packShape r s = packRequest r s gen := by
  cases s <;> (unfold packShape; exact ⟨_, rfl⟩)

/-- A packer is generated for the types that have a class. -/
theorem decides_pack (hr : c.registry.Made) (h : Allows c N O "pack" (c.registry.shape t)) :
    Verdict (judging c N J) O D ((c.registry.shape t).Classed c.registry)
      (pack c t) := by
  by_cases hs : (c.registry.shape t).Classed c.registry
  · exact (succeeds_packShape hr hs h).congr (iff_of_true trivial hs)
  · obtain ⟨gen, hgen⟩ := packShape_eq c.registry (c.registry.shape t)
    rw [pack, hgen]
    refine (Decides.lift_false (Shape.follows_shape t).reasoned_isDynamic
      fun b hb => ?_).congr (by simp [hs])
    exact absurd (Shape.classed_of_isDynamic hb) hs

/-! ## Unpackers -/

section

variable (hr : c.registry.Made)

include hr

theorem succeeds_unpackRequest (hs : s.Classed c.registry)
    (hdecodable : s.checkDecodable = .ok ()) (h : Allows c N O "unpack" s)
    (hgen : ∀ b, (⟨"unpack", [s.type]⟩ : Request) ∉ D →
      Supplies c N J (insert ⟨"unpack", [s.type]⟩ O) D ⟨"unpack", [s.type]⟩
        (gen b (Request.symbol ⟨"unpack", [s.type]⟩))) :
    Succeeds c N J O D (unpackRequest c.registry s gen) := by
  obtain ⟨b, hb⟩ := hs.exists_isDynamic
  obtain ⟨f, hf⟩ := hs.exists_form hr h.follows
  refine .lift_ok hb (.lift_ok hdecodable (Succeeds.request (x := ⟨"unpack", [s.type]⟩) h.mem
    (h.not_mem hf) ?_ trivial (hgen b)))
  simpa using h.concrete

omit hr in
theorem supplies_unpackWord (h : Free N (insert x O)) (hx : x ∉ D)
    (hs : s = .bool ∨ (∃ w, s = .int w) ∨ s = .address ∨
      ∃ d args, s = .enum d args ∧ c.registry.enumOf d.id args = .ok d) :
    Supplies c N J (insert x O) D x (unpackWord x.symbol s) := by
  have hword {params results locals : List ValType} (width : UInt32) (code : Code → Code)
      (hparams : decide (params.length ≤ 8) = true)
      (hlocals : decide (locals.length + 8 < UInt32.size) = true) :
      Supplies c N J (insert x O) D x
        (define x.symbol params results do return (locals, code (← checkedWord 0 0 width))) :=
    .define hx hparams (.andThen (succeeds_checkedWord h 0 0 width) fun _ => .body hlocals)
  have hzero {params results locals : List ValType} (n : UInt32) (code : Code → Code)
      (hparams : decide (params.length ≤ 8) = true)
      (hlocals : decide (locals.length + 8 < UInt32.size) = true) :
      Supplies c N J (insert x O) D x
        (define x.symbol params results do return (locals, code (← checkZero 0 0 n))) :=
    .define hx hparams (.andThen (succeeds_checkZero h 0 0 n) fun _ => .body hlocals)
  obtain rfl | ⟨w, rfl⟩ | rfl | ⟨d, args, rfl, hd⟩ := hs
  · exact hword 1 unpackBoolBody rfl rfl
  · cases w with
    | w8 => exact hword 1 id rfl rfl
    | w16 => exact hword 2 id rfl rfl
    | w32 => exact hword 4 id rfl rfl
    | w64 => exact .andThen (succeeds_swap64 h) fun swap => hzero 24 (unpackU64Body · swap) rfl rfl
    | w128 =>
      exact .andThen (succeeds_reverseBlock16 h) fun swap => hzero 16 (unpackU128Body · swap) rfl rfl
    | w256 => exact .andThen (succeeds_reverseBlock32 h) fun _ => Supplies.define_pure hx rfl rfl
  · exact hzero 12 unpackCopyBody rfl rfl
  · rw [unpackWord]
    split_ifs with hsize
    · exact fun _ _ hS => absurd hsize (Nat.not_le.2 (hS.sized.1.lt_of_enumOf hd))
    · exact hword 1 (unpackTagBody · _) rfl rfl

omit hr in
theorem supplies_unpackTagged (h : Free N (insert x O)) (hx : x ∉ D) {d : StructDef}
    (hd : d.tag ≠ .none ∧ d.tag ≠ .txContext ∧ d.tag ≠ .uid) (t : MoveType) :
    Supplies c N J (insert x O) D x (unpackTagged x.symbol d t) := by
  unfold unpackTagged
  split
  · exact .define hx rfl (.andThen (succeeds_checkedWord h 0 0 4) fun _ =>
      .andThen (succeeds_checkedWord h 2 0 4) fun _ => .body rfl)
  · exact .define hx rfl (.andThen (succeeds_checkZero h 0 _ _) fun _ => .body rfl)
  · exact .define_pure hx rfl rfl
  · rename_i hstring hbytes hid
    cases htag : d.tag with
    | none => exact absurd htag hd.1
    | txContext => exact absurd htag hd.2.1
    | uid => exact absurd htag hd.2.2
    | string => exact absurd htag hstring
    | id => exact absurd htag hid
    | bytes n => exact absurd htag (hbytes n)

theorem succeeds_unpackLeaf (hs : s.Classed c.registry) (h : Allows c N O "unpack" s)
    (ht : s = .bool ∨ (∃ w, s = .int w) ∨ s = .address ∨
      ∃ d args, s = .enum d args ∧ c.registry.enumOf d.id args = .ok d) :
    Succeeds c N J O D (unpackRequest c.registry s fun _ name => unpackWord name s) := by
  refine succeeds_unpackRequest hr hs ?_ h fun _ hD =>
    supplies_unpackWord (h.free.insert not_mem_routines) hD ht
  obtain rfl | ⟨w, rfl⟩ | rfl | ⟨d, args, rfl, -⟩ := ht <;> rfl

/-- The unpacker of a type that can be decoded is generated. -/
theorem succeeds_unpackShape (h : s.Classed c.registry) :
    s.checkDecodable = .ok () → ∀ {O D : Set Request}, Allows c N O "unpack" s →
      Succeeds c N J O D (unpackShape c.registry s) := by
  refine h.inductOn (P := fun s => s.checkDecodable = .ok () → ∀ {O D : Set Request},
      Allows c N O "unpack" s → Succeeds c N J O D (unpackShape c.registry s))
    (Q := fun fields => ∀ owner, Shape.checkDecodableFields owner fields = .ok () →
      ∀ {O D : Set Request} (offsets : List UInt32), AllowsAll c N O "unpack" fields →
        Succeeds c N J O D (unpackFields c.registry owner fields offsets))
    ?bool ?int ?address ?vector ?enum ?tagged ?struct ?nil ?cons
  case bool =>
    intro _ O D ha
    unfold unpackShape
    exact succeeds_unpackLeaf hr .bool ha (.inl rfl)
  case int =>
    intro w _ O D ha
    unfold unpackShape
    exact succeeds_unpackLeaf hr (.int w) ha (.inr (.inl ⟨w, rfl⟩))
  case address =>
    intro _ O D ha
    unfold unpackShape
    exact succeeds_unpackLeaf hr .address ha (.inr (.inr (.inl rfl)))
  case enum =>
    intro d args hsimple _ O D ha
    unfold unpackShape
    exact succeeds_unpackLeaf hr (.enum hsimple) ha
      (.inr (.inr (.inr ⟨d, args, rfl, ha.follows⟩)))
  case tagged =>
    intro d args htag hdecodable O D ha
    rw [unpackShape]
    refine succeeds_unpackRequest hr (.tagged htag) hdecodable ha fun _ hD =>
      supplies_unpackTagged (ha.free.insert not_mem_routines) hD ⟨ha.follows.2, htag, ?_⟩ _
    intro huid
    rw [Shape.checkDecodable, if_pos (.inl huid)] at hdecodable
    cases hdecodable
  case vector =>
    intro e he ih hdecodable O D ha
    rw [unpackShape]
    refine succeeds_unpackRequest hr (.vector he) hdecodable ha fun _ hD => ?_
    obtain ⟨f, hf⟩ := (Shape.Classed.vector he).exists_form hr ha.follows
    have hinner : Allows c N (insert ⟨"unpack", [e.vector.type]⟩ O) "unpack" e := ha.elem hf
    obtain ⟨n, hn⟩ := MoveType.exists_stackSize hinner.concrete
    obtain ⟨m, hm⟩ := he.exists_headSize
    refine .andThen (.under (ih (Shape.within_eq_ok hdecodable) hinner)) fun _ =>
      .lift_ok hn (.lift_ok hm ?_)
    exact Supplies.define hD rfl (.andThen (succeeds_checkedWord hinner.free 0 0 4) fun _ =>
      .andThen (succeeds_checkedWord hinner.free 2 0 4) fun _ => .body rfl)
  case struct =>
    intro d args fields hidentity hfields ih hdecodable O D ha
    rw [unpackShape]
    refine succeeds_unpackRequest hr (.struct hidentity hfields) hdecodable ha
      fun dynamic hD => ?_
    obtain ⟨f, hf⟩ := (Shape.Classed.struct hidentity hfields).exists_form hr ha.follows
    have hinner : AllowsAll c N (insert ⟨"unpack", [(Shape.struct d args fields).type]⟩ O) "unpack"
      fields := ha.fields hr hf
    obtain ⟨places, hplaces⟩ := FieldShapes.exists_layout hinner.concrete
    rw [Shape.checkDecodable] at hdecodable
    split_ifs at hdecodable
    refine .lift_ok hplaces (.andThen (ih d.name hdecodable places.1 hinner) fun parts => ?_)
    refine Supplies.define hD rfl ?_
    cases dynamic with
    | true => exact .andThen (succeeds_checkedWord hinner.free 0 0 4) fun _ => .body rfl
    | false => exact .body rfl
  case nil =>
    intro owner _ O D offsets _
    unfold unpackFields
    exact .pure fun _ h => h
  case cons =>
    intro name s rest hs ih _ ihrest owner hdecodable O D offsets ha
    rw [Shape.checkDecodableFields] at hdecodable
    obtain ⟨⟨⟩, hfirst, hothers⟩ := bind_eq_ok hdecodable
    cases offsets with
    | nil =>
      unfold unpackFields
      exact .pure fun _ h => h
    | cons offset offsets =>
      rw [unpackFields]
      obtain ⟨m, hm⟩ := hs.exists_headSize
      refine .andThen (.under (ih (Shape.within_eq_ok hfirst) ha.head)) fun _ => .lift_ok hm ?_
      exact .andThen (ihrest owner hothers offsets ha.tail) fun _ => .pure fun _ h => h

end

theorem unpackShape_eq (r : Registry) (s : Shape) :
    ∃ gen, unpackShape r s = unpackRequest r s gen := by
  cases s <;> (unfold unpackShape; exact ⟨_, rfl⟩)

/-- An unpacker is generated for the types that can be decoded. -/
theorem decides_unpack (hr : c.registry.Made) (h : Allows c N O "unpack" (c.registry.shape t)) :
    Verdict (judging c N J) O D (Decodable c.registry t) (unpack c t) := by
  by_cases hs : Decodable c.registry t
  · exact (succeeds_unpackShape hr hs.1 hs.2 h).congr (iff_of_true trivial hs)
  · obtain ⟨gen, hgen⟩ := unpackShape_eq c.registry (c.registry.shape t)
    rw [unpack, hgen]
    refine (Decides.lift_false (Shape.follows_shape t).reasoned_isDynamic fun b hb =>
      .lift_false (Shape.reasoned_checkDecodable _) fun _ hdecodable => ?_).congr (by simp [hs])
    exact absurd ⟨Shape.classed_of_isDynamic hb, hdecodable⟩ hs

end Codec

end MoveCodec
