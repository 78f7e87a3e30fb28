import MoveCodec.Proofs.Codec.Verdicts
import MoveCodec.Proofs.Storage.Generators

/-!
# Which storage functions are generated

The functions that save, load, read and delete objects are generated for the struct types that are
objects and have a layout. A stored struct cannot contain itself, so none of the functions that walk
over fields is asked for while it is being made.
-/
namespace MoveCodec

open Assembly List

variable {r : Registry} {d : StructDef} {fs : List Field} {s : Shape} {fields rest : FieldShapes}
  {args : List MoveType} {E : FuncId → FuncId → UInt32 → FieldShapes → List UInt32 → Generate Piece}
  {id : DefId} {kind name : String} {cells : List Cell}

/-! ## Shapes without variable size -/

mutual

/-- Values of the shape are stored as words. -/
inductive Shape.Inline : Shape → Prop
  | bool : Shape.Inline .bool
  | int (w : IntWidth) : Shape.Inline (.int w)
  | address : Shape.Inline .address
  | enum {d : EnumDef} {args : List MoveType} : d.isSimple = true → Shape.Inline (.enum d args)
  | tagged {d : StructDef} {args : List MoveType} : d.tag ≠ .string → d.tag ≠ .txContext →
      Shape.Inline (.tagged d args)
  | struct {d : StructDef} {args : List MoveType} {fields : FieldShapes} :
      FieldShapes.Inline fields → Shape.Inline (.struct d args fields)

inductive FieldShapes.Inline : FieldShapes → Prop
  | nil : FieldShapes.Inline .nil
  | cons {name : String} {s : Shape} {rest : FieldShapes} : Shape.Inline s →
      FieldShapes.Inline rest → FieldShapes.Inline (.cons name s rest)

end

/-- Induction over fields that are stored as words, and over their shapes. -/
theorem FieldShapes.Inline.inductOn {P : Shape → Prop} {Q : FieldShapes → Prop}
    (h : fields.Inline) (bool : P .bool) (int : ∀ w, P (.int w)) (address : P .address)
    (enum : ∀ d args, d.isSimple = true → P (.enum d args))
    (tagged : ∀ d args, d.tag ≠ .string → d.tag ≠ .txContext → P (.tagged d args))
    (struct : ∀ d args fields, FieldShapes.Inline fields → Q fields → P (.struct d args fields))
    (nil : Q .nil) (cons : ∀ name s rest, s.Inline → P s → FieldShapes.Inline rest → Q rest →
      Q (.cons name s rest)) : Q fields :=
  @FieldShapes.Inline.rec (fun s _ => P s) (fun fields _ => Q fields) bool int address
    (fun {d args} hd => enum d args hd) (fun {d args} hd hd' => tagged d args hd hd')
    (fun {d args fields} hf ih => struct d args fields hf ih) nil
    (fun {name s rest} hs hrest ih ihrest => cons name s rest hs ih hrest ihrest) fields h

namespace Shape

open Storage

mutual

/-- A shape that has words is stored as words. -/
theorem inline_of_cells : ∀ {path : String} {s : Shape} {ws : List Cell},
    s.cells r path = .ok ws → s.Inline
  | _, .bool, _, _ => .bool
  | _, .int w, _, _ => .int w
  | _, .address, _, _ => .address
  | _, .enum d args, _, h => by
    rw [cells] at h
    split at h
    · exact .enum ‹_›
    · cases h
  | _, .tagged d args, _, h => by
    rw [cells] at h
    refine .tagged (fun htag => ?_) fun htag => ?_
    all_goals
      rw [htag] at h
      cases h
  | _, .struct d args fields, _, h => by
    rw [cells] at h
    exact .struct (inline_of_fieldCells h)
  | _, .vector _, _, h | _, .signer, _, h | _, .param _, _, h | _, .missing _ _, _, h
  | _, .broken _ _ _, _, h | _, .endless _ _, _, h => by
    rw [cells] at h
    cases h
  | _, .ref m t, _, h => by
    unfold cells at h
    split at h <;> cases h

theorem inline_of_fieldCells : ∀ {path : String} {fields : FieldShapes}
    {ws : List Cell}, fieldCells r path fields = .ok ws → fields.Inline
  | _, .nil, _, _ => .nil
  | _, .cons name s rest, _, h => by
    rw [fieldCells] at h
    obtain ⟨a, ha, h⟩ := bind_eq_ok h
    obtain ⟨b, hb, -⟩ := bind_eq_ok h
    exact .cons (inline_of_cells ha) (inline_of_fieldCells hb)

end

end Shape

theorem FieldShapes.Inline.exists_forms (hr : r.Made) (h : fields.Inline) :
    fields.Follow r → ∃ fs, HaveForms r fields.types fs := by
  refine h.inductOn (P := fun s => s.Follows r → ∃ f, HasForm r s.type f)
    (Q := fun fields => fields.Follow r → ∃ fs, HaveForms r fields.types fs)
    ?bool ?int ?address ?enum ?tagged ?struct ?nil ?cons
  case bool => exact fun _ => ⟨_, .bool⟩
  case int => exact fun w _ => ⟨_, .int w⟩
  case address => exact fun _ => ⟨_, .address⟩
  case enum => exact fun d args hsimple hs => ⟨_, .enum hs hsimple⟩
  case tagged => exact fun d args _ htag hs => Shape.exists_form_tagged hr hs.1 hs.2 htag
  case struct =>
    intro d args fields _ ih hs
    obtain ⟨hd, htag, ⟨fs, hfs, htypes⟩, hfollow, -⟩ := hs
    obtain ⟨forms, hforms⟩ := ih hfollow
    exact ⟨_, .struct hd htag hfs (htypes ▸ hforms)⟩
  case nil => exact fun _ => ⟨_, .nil⟩
  case cons =>
    intro name s rest _ ih _ ihrest hs
    obtain ⟨f, hf⟩ := ih hs.1
    obtain ⟨fs, hfs⟩ := ihrest hs.2
    exact ⟨_, .cons hf hfs⟩

/-! ## Plain structs inside fields -/

mutual

/-- The types of the plain structs that the words of a shape come from. -/
def Shape.blocks : Shape → List MoveType
  | .struct d args fields => .struct d.id args :: fields.blocks
  | _ => []

def FieldShapes.blocks : FieldShapes → List MoveType
  | .nil => []
  | .cons _ s rest => s.blocks ++ rest.blocks

end

theorem FieldShapes.Inline.blocks_smaller (h : fields.Inline) :
    fields.Follow r → ∀ {fs : Forms}, HaveForms r fields.types fs →
      ∀ u ∈ fields.blocks, (∃ id args d, u = .struct id args ∧ r.structOf id args = .ok d ∧
        d.tag = .none) ∧ ∃ g, HasForm r u g ∧ sizeOf g < sizeOf fs := by
  refine h.inductOn
    (P := fun s => s.Follows r → ∀ {f : Form}, HasForm r s.type f →
      ∀ u ∈ s.blocks, (∃ id args d, u = .struct id args ∧ r.structOf id args = .ok d ∧
        d.tag = .none) ∧ ∃ g, HasForm r u g ∧ sizeOf g ≤ sizeOf f)
    (Q := fun fields => fields.Follow r → ∀ {fs : Forms}, HaveForms r fields.types fs →
      ∀ u ∈ fields.blocks, (∃ id args d, u = .struct id args ∧ r.structOf id args = .ok d ∧
        d.tag = .none) ∧ ∃ g, HasForm r u g ∧ sizeOf g < sizeOf fs)
    ?bool ?int ?address ?enum ?tagged ?struct ?nil ?cons
  case bool => exact fun _ _ _ => nofun
  case int => exact fun _ _ _ _ => nofun
  case address => exact fun _ _ _ => nofun
  case enum => exact fun _ _ _ _ _ _ => nofun
  case tagged => exact fun _ _ _ _ _ _ _ => nofun
  case struct =>
    intro d args fields _ ih hs f hf u hu
    obtain ⟨fs, rfl, hfs⟩ := Shape.fields_of_struct hs hf
    obtain ⟨hd, htag, -, hfollow, -⟩ := hs
    rw [Shape.blocks, mem_cons] at hu
    rcases hu with rfl | hu
    · exact ⟨⟨_, _, d, rfl, hd, htag⟩, _, hf, le_rfl⟩
    · obtain ⟨hdef, g, hg, hlt⟩ := ih hfollow hfs u hu
      exact ⟨hdef, g, hg, by rw [Form.struct.sizeOf_spec]; omega⟩
  case nil => exact fun _ _ _ => nofun
  case cons =>
    intro name s rest _ ih _ ihrest hs fs hfs u hu
    rw [FieldShapes.types] at hfs
    cases hfs with
    | cons hf hfs =>
      rw [FieldShapes.blocks, mem_append] at hu
      rw [Forms.cons.sizeOf_spec]
      rcases hu with hu | hu
      · obtain ⟨hdef, g, hg, hle⟩ := ih hs.1 hf u hu
        exact ⟨hdef, g, hg, by omega⟩
      · obtain ⟨hdef, g, hg, hlt⟩ := ihrest hs.2 hfs u hu
        exact ⟨hdef, g, hg, by omega⟩

/-- A struct that is stored as words does not contain itself. -/
theorem FieldShapes.Inline.not_mem_blocks (hr : r.Made) (h : fields.Inline)
    (hfollow : fields.Follow r) (hd : r.structOf id args = .ok d)
    (hfs : Registry.instantiate d args = .ok fs) (htypes : fields.types = fs.map (·.type)) :
    .struct id args ∉ fields.blocks := by
  intro hmem
  obtain ⟨forms, hforms⟩ := h.exists_forms hr hfollow
  obtain ⟨⟨id', args', d', heq, hd', htag⟩, g, hg, hlt⟩ := h.blocks_smaller hfollow hforms _ hmem
  cases heq
  cases hd.symm.trans hd'
  cases hg.unique (.struct hd htag hfs (htypes ▸ hforms))
  rw [Form.struct.sizeOf_spec] at hlt
  omega

namespace Storage

open Wasm Wasm.Emit Prelude Machine Codec

variable {c : Context} {N J O D : Set Request}

/-! ## Fields -/

/-- The generator succeeds with code that has at most `n` locals of its own. -/
abbrev Pieces (c : Context) (N J O D : Set Request) (n : Nat) (g : Generate Piece) : Prop :=
  Decides (judging c N J) (Underway (judging c N J) O D) True g fun y b =>
    y.1.length ≤ n ∧ Underway (judging c N J) O D b

theorem Pieces.after {n : Nat} {g : Generate FuncId} {piece : FuncId → Piece}
    (hg : Succeeds c N J O D g) (h : ∀ f, (piece f).1.length ≤ n) :
    Pieces c N J O D n (g >>= fun f => pure (piece f)) :=
  .andThen hg fun f => .pure fun _ hb => ⟨h f, hb⟩

/-- A field that is no struct is written with at most one local of its own and read with four. -/
theorem pieces_scalar (h : Free N O) (hs : s.Inline) (hfollows : s.Follows c.registry)
    (hscalar : s.blocks = []) (v w next : UInt32) :
    Pieces c N J O D 1 (wordOfValue c.registry s.type v w next) ∧
      Pieces c N J O D 4 (valueOfWord c.registry s.type w v) := by
  have hle {m n : Nat} (h : Nat.ble m n = true) : m ≤ n := Nat.le_of_ble_eq_true h
  have hboth {g : Generate FuncId} (hg : Succeeds c N J O D g) {piece piece' : FuncId → Piece}
      (h : ∀ f, Nat.ble (piece f).1.length 1 = true)
      (h' : ∀ f, Nat.ble (piece' f).1.length 4 = true) :
      Pieces c N J O D 1 (g >>= fun f => pure (piece f)) ∧
        Pieces c N J O D 4 (g >>= fun f => pure (piece' f)) :=
    ⟨.after hg fun f => hle (h f), .after hg fun f => hle (h' f)⟩
  cases hs with
  | bool | enum => exact hboth (succeeds_swap32 h) (fun _ => rfl) fun _ => rfl
  | int w =>
    cases w with
    | w8 | w16 | w32 => exact hboth (succeeds_swap32 h) (fun _ => rfl) fun _ => rfl
    | w64 => exact hboth (succeeds_swap64 h) (fun _ => rfl) fun _ => rfl
    | w128 => exact hboth (succeeds_reverseBlock16 h) (fun _ => rfl) fun _ => rfl
    | w256 => exact hboth (succeeds_reverseBlock32 h) (fun _ => rfl) fun _ => rfl
  | address => exact ⟨.pure fun _ h => ⟨hle rfl, h⟩, .pure fun _ h => ⟨hle rfl, h⟩⟩
  | @tagged d args hstring hcontext =>
    rw [Shape.type, wordOfValue, valueOfWord, Registry.tagOf_eq hfollows.1]
    cases htag : d.tag with
    | none => exact absurd htag hfollows.2
    | string => exact absurd htag hstring
    | txContext => exact absurd htag hcontext
    | uid | id | bytes => exact ⟨.pure fun _ h => ⟨hle rfl, h⟩, .pure fun _ h => ⟨hle rfl, h⟩⟩
  | struct => cases hscalar

/-- The functions of a kind can be requested for the structs inside fields. -/
structure Walkable (c : Context) (N O : Set Request) (kind : String) (fields : FieldShapes) :
    Prop where
  follow : fields.Follow c.registry
  concrete : ∀ t ∈ fields.types, t.isConcrete = true
  listed : ∀ u ∈ fields.blocks, ⟨kind, [u]⟩ ∈ N ∧ ⟨kind, [u]⟩ ∉ O
  free : Free N O

section

variable {kind name : String} {fields rest : FieldShapes}

theorem Walkable.tail (h : Walkable c N O kind (.cons name s rest)) :
    Walkable c N O kind rest :=
  ⟨h.follow.2, fun t ht => h.concrete t (by simp [FieldShapes.types, ht]),
    fun u hu => h.listed u (by simp [FieldShapes.blocks, hu]), h.free⟩

theorem Walkable.args_concrete (h : Walkable c N O kind (.cons name (.struct d args fields) rest)) :
    ∀ a ∈ args, a.isConcrete = true :=
  MoveType.isConcrete_struct.1 (h.concrete (.struct d.id args) (by simp [FieldShapes.types, Shape.type]))

/-- The fields of a struct can be walked over while the function for the struct is made. -/
theorem Walkable.inner (hr : c.registry.Made) (hinline : fields.Inline)
    (hfollow : fields.Follow c.registry) (hargs : ∀ a ∈ args, a.isConcrete = true)
    (hd : c.registry.structOf id args = .ok d) (hfs : Registry.instantiate d args = .ok fs)
    (htypes : fields.types = fs.map (·.type))
    (hlisted : ∀ u ∈ fields.blocks, ⟨kind, [u]⟩ ∈ N ∧ ⟨kind, [u]⟩ ∉ O) (hfree : Free N O) :
    Walkable c N (insert ⟨kind, [.struct id args]⟩ O) kind fields := by
  refine ⟨hfollow, fun t ht => ?_, fun u hu => ⟨(hlisted u hu).1, ?_⟩,
    hfree.insert not_mem_routines⟩
  · rw [htypes] at ht
    obtain ⟨f, hf, rfl⟩ := mem_map.1 ht
    exact hr.isConcrete_of_instantiate hd hargs hfs f hf
  · rintro (hsame | hmem)
    · cases hsame
      exact hinline.not_mem_blocks hr hfollow hd hfs htypes hu
    · exact (hlisted u hu).2 hmem

end

theorem succeeds_addWide (h : Free N O) : Succeeds c N J O D addWide :=
  succeeds_routine h (x := ⟨"add_u256", []⟩) (by simp [routines]) rfl rfl

theorem succeeds_stepSlot (h : Free N O) : Succeeds c N J O D stepSlot :=
  .andThen (succeeds_reverseBlock32 h) fun _ => .andThen (succeeds_addWide h) fun _ =>
    succeeds_routine h (x := ⟨"storage_next_slot", []⟩) (by simp [routines]) rfl rfl

theorem succeeds_sameWord (h : Free N O) : Succeeds c N J O D sameWord :=
  succeeds_routine h (x := ⟨"equal_bytes32", []⟩) (by simp [routines]) rfl rfl

theorem succeeds_importHost (f : HostFunc) : Succeeds c N J O D (importHost c f) :=
  .importHost rfl f

theorem succeeds_deriveSlot (h : Free N O) : Succeeds c N J O D (deriveSlot c) :=
  .andThen (succeeds_importHost _) fun _ =>
    succeeds_routine h (x := ⟨"write_object_slot", []⟩) (by simp [routines]) rfl rfl

theorem succeeds_locate (h : Free N O) : Succeeds c N J O D (locate c) :=
  .andThen (succeeds_deriveSlot h) fun _ => .andThen (succeeds_sameWord h) fun _ =>
    .andThen (succeeds_importHost _) fun _ => .andThen (succeeds_importHost _) fun _ =>
      succeeds_routine h (x := ⟨"locate_object", []⟩) (by simp [routines]) rfl rfl

/-- Locals for the fields of a struct can be numbered. -/
theorem size_le (hd : c.registry.structOf id args = .ok d)
    (hfs : Registry.instantiate d args = .ok fs) (htypes : fields.types = fs.map (·.type))
    (h : Sized c.registry) : 4 * fields.types.length + 16 ≤ UInt32.size := by
  rw [htypes, length_map, (Registry.instantiate_eq_ok.1 hfs).2, length_map]
  exact h.fields d (Shape.mem_structs_of_structOf hd)

theorem Walkable.size_le (h : Walkable c N O kind (.cons name (.struct d args fields) rest))
    (hsized : Sized c.registry) : 4 * fields.types.length + 16 ≤ UInt32.size := by
  obtain ⟨⟨hd, -, ⟨fs, hfs, htypes⟩, -⟩, -⟩ := h.follow
  exact Storage.size_le hd hfs htypes hsized

/-- The function for the fields of a struct can be requested, and the code for them generated. -/
structure Enters (c : Context) (N J O : Set Request) (kind : String) (d : StructDef)
    (args : List MoveType) (fields : FieldShapes)
    (each : FuncId → FuncId → UInt32 → FieldShapes → List UInt32 → Generate Piece) : Prop where
  walkable : Walkable c N (insert ⟨kind, [.struct d.id args]⟩ O) kind fields
  concrete : ∀ a ∈ args, a.isConcrete = true
  free : Free N O
  listed : (⟨kind, [.struct d.id args]⟩ : Request) ∈ N
  closed : (⟨kind, [.struct d.id args]⟩ : Request) ∉ O
  size : Sized c.registry → 4 * fields.types.length + 16 ≤ UInt32.size
  each : ∀ D next f v offsets, Pieces c N J (insert ⟨kind, [.struct d.id args]⟩ O) D
    (4 * fields.types.length) (each next f v fields offsets)

theorem succeeds_fieldWriter (h : Enters c N J O "storage_save_fields" d args fields (saveEach c)) :
    Succeeds c N J O D (fieldWriter c (.struct d args fields)) := by
  obtain ⟨places, hplaces⟩ := FieldShapes.exists_layout h.walkable.concrete
  rw [fieldWriter]
  refine .lift_ok hplaces (.andThen (succeeds_stepSlot h.free) fun next =>
    .andThen (succeeds_importHost _) fun cache => ?_)
  refine Succeeds.request (x := ⟨"storage_save_fields", [.struct d.id args]⟩) h.listed h.closed ?_
    trivial fun hD => .define hD rfl (.andThen (h.each _ next cache 3 places.1) fun y =>
      .assume fun hy => .pure fun _ hb => ⟨fun hS => ?_, hb⟩)
  · simpa [MoveType.isConcrete_struct] using h.concrete
  · have := h.size hS.sized.1
    simp only [length_cons]
    omega

theorem succeeds_fieldReader (h : Enters c N J O "storage_read_fields" d args fields (readEach c)) :
    Succeeds c N J O D (fieldReader c (.struct d args fields)) := by
  obtain ⟨places, hplaces⟩ := FieldShapes.exists_layout h.walkable.concrete
  rw [fieldReader]
  refine .lift_ok hplaces (.andThen (succeeds_stepSlot h.free) fun next =>
    .andThen (succeeds_importHost _) fun load => ?_)
  refine Succeeds.request (x := ⟨"storage_read_fields", [.struct d.id args]⟩) h.listed h.closed ?_
    trivial fun hD => .define hD rfl (.andThen (h.each _ next load 3 places.1) fun y =>
      .assume fun hy => .pure fun _ hb => ⟨fun hS => ?_, hb⟩)
  · simpa [MoveType.isConcrete_struct] using h.concrete
  · have := h.size hS.sized.1
    simp only [length_cons]
    omega

theorem Walkable.of_struct (hr : c.registry.Made)
    (h : Walkable c N O kind (.cons name (.struct d args fields) rest)) (hinline : fields.Inline) :
    Walkable c N (insert ⟨kind, [.struct d.id args]⟩ O) kind fields := by
  obtain ⟨⟨hd, -, ⟨fs, hfs, htypes⟩, hfollow, -⟩, -⟩ := h.follow
  refine .inner hr hinline hfollow (h.args_concrete) hd hfs htypes (fun u hu => ?_) h.free
  exact h.listed u (by simp [FieldShapes.blocks, Shape.blocks, hu])

/-- Code for fields that are stored as words is generated, if no field needs more than four locals
and the function for a plain struct is generated with the code for its fields. -/
theorem pieces_each (hr : c.registry.Made) {G : Shape → Generate FuncId}
    (hstruct : ∀ {O D d args fields}, Enters c N J O kind d args fields E →
      Succeeds c N J O D (G (.struct d args fields)))
    (hnil : ∀ next f v fields offsets, fields = .nil ∨ offsets = [] →
      E next f v fields offsets = pure ([], []))
    (hfield : ∀ {O D n s next f v name rest offset offsets}, s.Inline → s.Follows c.registry →
      Free N O → (s.blocks ≠ [] → Succeeds c N J O D (G s)) →
      (∀ v, Pieces c N J O D n (E next f v rest offsets)) →
      Pieces c N J O D (4 + n) (E next f v (.cons name s rest) (offset :: offsets)))
    (h : fields.Inline) :
    ∀ {O D : Set Request} (next f : FuncId) (v : UInt32) (offsets : List UInt32),
      Walkable c N O kind fields →
        Pieces c N J O D (4 * fields.types.length) (E next f v fields offsets) := by
  refine h.inductOn
    (P := fun s => ∀ {O D : Set Request} {name : String} {rest : FieldShapes}, s.blocks ≠ [] →
      Walkable c N O kind (.cons name s rest) → Succeeds c N J O D (G s))
    (Q := fun fields => ∀ {O D : Set Request} (next f : FuncId) (v : UInt32)
      (offsets : List UInt32), Walkable c N O kind fields →
        Pieces c N J O D (4 * fields.types.length) (E next f v fields offsets))
    ?bool ?int ?address ?enum ?tagged ?struct ?nil ?cons
  case bool | int | address | enum | tagged =>
    intros
    rename_i hblocks _
    exact absurd rfl hblocks
  case struct =>
    intro d args fields hinline ih O D name rest _ hw
    have hself := hw.listed (.struct d.id args) (by simp [FieldShapes.blocks, Shape.blocks])
    have hinner := hw.of_struct hr hinline
    exact hstruct ⟨hinner, hw.args_concrete, hw.free, hself.1, hself.2, hw.size_le,
      fun D next f v offsets => ih next f v offsets hinner⟩
  case nil =>
    intro O D next f v offsets _
    rw [hnil _ _ _ _ _ (.inl rfl)]
    exact .pure fun _ h => ⟨Nat.zero_le _, h⟩
  case cons =>
    intro name s rest hs ih _ ihrest O D next f v offsets hw
    cases offsets with
    | nil =>
      rw [hnil _ _ _ _ _ (.inr rfl)]
      exact .pure fun _ h => ⟨Nat.zero_le _, h⟩
    | cons offset offsets =>
      rw [FieldShapes.types, length_cons, Nat.mul_succ, Nat.add_comm]
      exact hfield hs hw.follow.1 hw.free (fun hblocks => ih hblocks hw)
        fun v => ihrest next f v offsets hw.tail

theorem pieces_saveEach (hr : c.registry.Made) (h : fields.Inline) (next cache : FuncId)
    (v : UInt32) (offsets : List UInt32) (hw : Walkable c N O "storage_save_fields" fields) :
    Pieces c N J O D (4 * fields.types.length) (saveEach c next cache v fields offsets) := by
  refine pieces_each hr succeeds_fieldWriter ?_ ?_ h next cache v offsets hw
  · rintro next cache v fields offsets (rfl | rfl)
    · rw [saveEach.eq_def]
    · cases fields <;> rw [saveEach.eq_def]
  · intro O D n s next cache v name rest offset offsets hs hfollows hfree hinner hrest
    have hpiece := fun hscalar =>
      (pieces_scalar (J := J) (D := D) hfree hs hfollows hscalar v 2 (v + 1)).1
    unfold saveEach
    cases hs with
    | struct =>
      refine .andThen (.under (hinner nofun)) fun _ => .pure_bind (.andThen (hrest _) fun y =>
        .assume fun hy => .pure fun _ h => ⟨?_, h⟩)
      simp only [length_append, length_cons, length_nil]
      omega
    | bool | int | address | enum | tagged =>
      refine .andThen (.under (hpiece rfl)) fun z => .assume fun hz => .pure_bind (.andThen
        (hrest _) fun y => .assume fun hy => .pure fun _ h => ⟨?_, h⟩)
      simp only [length_append, length_cons]
      omega

theorem pieces_readEach (hr : c.registry.Made) (h : fields.Inline) (next load : FuncId)
    (v : UInt32) (offsets : List UInt32) (hw : Walkable c N O "storage_read_fields" fields) :
    Pieces c N J O D (4 * fields.types.length) (readEach c next load v fields offsets) := by
  refine pieces_each hr succeeds_fieldReader ?_ ?_ h next load v offsets hw
  · rintro next load v fields offsets (rfl | rfl)
    · rw [readEach.eq_def]
    · cases fields <;> rw [readEach.eq_def]
  · intro O D n s next load v name rest offset offsets hs hfollows hfree hinner hrest
    have hpiece := fun hscalar =>
      (pieces_scalar (J := J) (D := D) hfree hs hfollows hscalar v 1 0).2
    unfold readEach
    cases hs with
    | struct =>
      refine .andThen (.under (hinner nofun)) fun _ => .pure_bind (.andThen (hrest _) fun y =>
        .assume fun hy => .pure fun _ h => ⟨?_, h⟩)
      simp only [length_append, length_cons, length_nil]
      omega
    | bool | int | address | enum | tagged =>
      refine .andThen (.under (hpiece rfl)) fun z => .assume fun hz => .pure_bind (.andThen
        (hrest _) fun y => .assume fun hy => .pure fun _ h => ⟨?_, h⟩)
      simp only [length_append]
      omega

/-! ## Objects -/

theorem flatMapM_cells (r : Registry) (path : String) (fields : List (String × Shape)) :
    fields.flatMapM (fun (name, s) => s.cells r (path ++ "." ++ name)) =
      Shape.fieldCells r path (.ofList fields) := by
  have hloop : ∀ acc : List (List Cell),
      List.flatMapM.loop (fun (name, s) => s.cells r (path ++ "." ++ name)) fields acc =
        (acc.reverse.flatten ++ ·) <$> Shape.fieldCells r path (.ofList fields) := by
    induction fields with
    | nil =>
      intro acc
      rw [List.flatMapM.loop, FieldShapes.ofList, Shape.fieldCells]
      exact congrArg Except.ok (append_nil _).symm
    | cons f fields ih =>
      intro acc
      rw [List.flatMapM.loop, FieldShapes.ofList, Shape.fieldCells]
      simp only [ih, map_eq_pure_bind, reverse_cons, List.flatten_append]
      simp
  simpa [List.flatMapM] using hloop []

theorem storageLayout_eq (hd : r.structOf id args = .ok d)
    (hfields : r.fieldShapes id args = .ok fields) :
    r.storageLayout id args = Shape.fieldCells r d.name fields := by
  rw [Registry.storageLayout, hd, hfields]
  change List.flatMapM _ fields.toList = _
  rw [flatMapM_cells, FieldShapes.ofList_toList]

/-- What is known of the fields of an object that can be stored. -/
structure Held (r : Registry) (id : DefId) (args : List MoveType) (d : StructDef)
    (fields : FieldShapes) : Prop where
  structOf_eq : r.structOf id args = .ok d
  exists_fields : ∃ fs, Registry.instantiate d args = .ok fs ∧ fields.types = fs.map (·.type)
  follow : fields.Follow r
  inline : fields.Inline

theorem held_of_stored (hd : r.requireObject id args = .ok d)
    (hcells : r.storageLayout id args = .ok cells) (hfields : r.fieldShapes id args = .ok fields) :
    Held r id args d fields := by
  have hd := structOf_of_requireObject hd
  have hid := Registry.id_of_structOf hd
  subst hid
  obtain ⟨⟨fs, hfs, htypes⟩, hfollow⟩ := laid_of_fieldShapes hfields
  rw [Registry.fields, hd] at hfs
  refine ⟨hd, ⟨fs, hfs, htypes⟩, hfollow, ?_⟩
  rw [storageLayout_eq hd hfields] at hcells
  exact Shape.inline_of_fieldCells hcells

theorem exists_fieldForms (hr : r.Made) (hd : r.requireObject id args = .ok d)
    (hcells : r.storageLayout id args = .ok cells) : ∃ fs, FieldForms r (.struct id args) fs := by
  obtain ⟨_, -, h⟩ := bind_eq_ok hcells
  obtain ⟨shapes, hshapes, -⟩ := bind_eq_ok h
  have hheld := held_of_stored hd hcells hshapes
  obtain ⟨fs, hfs⟩ := hheld.inline.exists_forms hr hheld.follow
  obtain ⟨fields, hfields, heq⟩ := bind_eq_ok hshapes
  cases heq
  have htypes : (FieldShapes.ofList (fields.map fun f => (f.name, r.shape f.type))).types =
      fields.map (·.type) := by
    simp [FieldShapes.types_ofList, Shape.type_shape]
  exact ⟨fs, fields, hfields, htypes ▸ hfs⟩

theorem makes_load_object {c : Context} (hc : c.registry.Made) {H : Program → Prop}
    (hH : ∀ p, H p → HasAllocator p) (id : DefId) (args : List MoveType) :
    Makes (Serves c.registry) H (load c id args) fun f p => ∃ d cells fs,
      c.registry.requireObject id args = .ok d ∧ c.registry.storageLayout id args = .ok cells ∧
      FieldForms c.registry (.struct id args) fs ∧
      ∀ ident, Computes p f [.i32 ident] (loading fs ident) fun a => [.i32 a] := by
  intro a ha halloc
  have hends := makes_load hH id args a ha halloc
  cases hrun : (load c id args).run a with
  | error e b => rwa [hrun] at hends
  | ok f b =>
    rw [hrun] at hends
    obtain ⟨d, cells, hd, hcells⟩ := storable_of_run hrun
    obtain ⟨fs, hfs⟩ := exists_fieldForms hc hd hcells
    exact ⟨hends.1, hends.2.1, hends.2.2.imp fun p hp => ⟨d, cells, fs, hd, hcells, hfs, hp fs hfs⟩⟩

section

variable {id : DefId} {args : List MoveType} {fields : FieldShapes} (hr : c.registry.Made)
  (h : Held c.registry id args d fields) (hargs : ∀ a ∈ args, a.isConcrete = true) (hq : Quiet N O)

include hr h hargs hq

theorem Held.enters (hopen : ∀ u, (⟨kind, [u]⟩ : Request) ∉ O)
    (hlisted : ∀ u ∈ .struct id args :: fields.blocks, ⟨kind, [u]⟩ ∈ N)
    (heach : ∀ {O D} next f v offsets, Walkable c N O kind fields →
      Pieces c N J O D (4 * fields.types.length) (E next f v fields offsets)) :
    Enters c N J O kind d args fields E := by
  obtain ⟨fs, hfs, htypes⟩ := h.exists_fields
  have hwalk : Walkable c N (insert ⟨kind, [.struct id args]⟩ O) kind fields :=
    .inner hr h.inline h.follow hargs h.structOf_eq hfs htypes
      (fun u hu => ⟨hlisted u (by simp [hu]), hopen u⟩) hq.free
  have hself := hlisted (.struct id args) (by simp)
  rw [← Registry.id_of_structOf h.structOf_eq] at hwalk hself
  exact ⟨hwalk, hargs, hq.free, hself, hopen _, size_le h.structOf_eq hfs htypes,
    fun D next f v offsets => heach next f v offsets hwalk⟩

theorem Held.succeeds_writer
    (hlisted : ∀ u ∈ .struct id args :: fields.blocks, ⟨"storage_save_fields", [u]⟩ ∈ N) :
    Succeeds c N J O D (fieldWriter c (.struct d args fields)) :=
  succeeds_fieldWriter (h.enters hr hargs hq (fun _ => hq.not_mem (by decide)) hlisted
    fun next f v offsets hw => pieces_saveEach hr h.inline next f v offsets hw)

theorem Held.succeeds_reader
    (hlisted : ∀ u ∈ .struct id args :: fields.blocks, ⟨"storage_read_fields", [u]⟩ ∈ N) :
    Succeeds c N J O D (fieldReader c (.struct d args fields)) :=
  succeeds_fieldReader (h.enters hr hargs hq (fun _ => hq.not_mem (by decide)) hlisted
    fun next f v offsets hw => pieces_readEach hr h.inline next f v offsets hw)

end

/-- The types whose fields are walked over for an object. -/
def objectBlocks (r : Registry) (id : DefId) (args : List MoveType) : List MoveType :=
  .struct id args ::
    match r.fieldShapes id args with
    | .ok fields => fields.blocks
    | .error _ => []

def objectRequests (r : Registry) (id : DefId) (args : List MoveType) : List Request :=
  ["storage_save", "storage_read", "storage_load", "storage_delete"].map
    (⟨·, [.struct id args]⟩) ++
  (objectBlocks r id args).flatMap fun u =>
    [⟨"storage_save_fields", [u]⟩, ⟨"storage_read_fields", [u]⟩]

section

variable {id : DefId} {args : List MoveType}

theorem decides_stored {k : Stored → Generate FuncId}
    (h : ∀ d fields cells, Held c.registry id args d fields →
      objectBlocks c.registry id args = .struct id args :: fields.blocks →
      Succeeds c N J O D (k ⟨.struct id args, .struct d args fields, cells⟩)) :
    Verdict (judging c N J) O D (Storable c.registry (.struct id args))
      (stored c id args >>= k) := by
  simp only [stored, bind_assoc, pure_bind]
  refine (Decides.lift (Registry.reasoned_requireObject id args) fun d hd =>
    Decides.lift (Registry.reasoned_storageLayout id args) fun cells hcells =>
      Decides.lift (U := fun _ => True) (Registry.reasoned_fieldShapes id args)
        fun fields hfields => ?_).congr ?_
  · refine h d fields cells (held_of_stored hd hcells hfields) ?_
    rw [objectBlocks, hfields]
  · constructor
    · rintro ⟨d, hd, cells, hcells, fields, hfields, -⟩
      exact ⟨id, args, d, cells, fields, rfl, hd, hcells, hfields⟩
    · rintro ⟨_, _, d, cells, fields, heq, hd, hcells, hfields⟩
      cases heq
      exact ⟨d, hd, cells, hcells, fields, hfields, trivial⟩

variable (hr : c.registry.Made) (hq : Quiet N O) (hargs : ∀ a ∈ args, a.isConcrete = true)
  (hlisted : ∀ x ∈ objectRequests c.registry id args, x ∈ N)

include hq hargs hlisted

/-- The function itself is requested once its parts are there. -/
theorem succeeds_objectRequest
    (hkind : kind ∈ ["storage_save", "storage_read", "storage_load", "storage_delete"])
    {params results locals : List ValType} {code : Code}
    (hparams : decide (params.length ≤ 8) = true)
    (hlocals : decide (locals.length + 8 < UInt32.size) = true) :
    Succeeds c N J O D (request kind [.struct id args] fun name =>
      define name params results (pure (locals, code))) := by
  have hmem : (⟨kind, [.struct id args]⟩ : Request) ∈ N :=
    hlisted _ (mem_append_left _ (mem_map_of_mem hkind))
  have hargs' : (MoveType.struct id args).isConcrete = true := MoveType.isConcrete_struct.2 hargs
  simp only [mem_cons, not_mem_nil, or_false] at hkind
  rcases hkind with rfl | rfl | rfl | rfl
  all_goals
    exact Succeeds.request hmem (hq.not_mem (by decide)) (by simpa using hargs') trivial
      fun hD => .define_pure hD hparams hlocals

include hr

theorem decides_save : Verdict (judging c N J) O D
    (Storable c.registry (.struct id args)) (save c id args) := by
  refine decides_stored fun d fields cells hheld hblocks => ?_
  refine .andThen (succeeds_deriveSlot hq.free) fun _ =>
    .andThen (hheld.succeeds_writer hr hargs hq fun u hu => ?_) fun _ =>
      .andThen (succeeds_importHost _) fun _ =>
        succeeds_objectRequest hq hargs hlisted (by simp) rfl rfl
  refine hlisted _ (mem_append_right _ (mem_flatMap.2 ⟨u, hblocks ▸ hu, by simp⟩))

theorem decides_read : Verdict (judging c N J) O D
    (Storable c.registry (.struct id args)) (read c id args) := by
  refine decides_stored fun d fields cells hheld hblocks => ?_
  refine .andThen (succeeds_deriveSlot hq.free) fun _ =>
    .andThen (succeeds_sameWord hq.free) fun _ =>
      .andThen (hheld.succeeds_reader hr hargs hq fun u hu => ?_) fun _ =>
        succeeds_objectRequest hq hargs hlisted (by simp) rfl rfl
  refine hlisted _ (mem_append_right _ (mem_flatMap.2 ⟨u, hblocks ▸ hu, by simp⟩))

theorem decides_load : Verdict (judging c N J) O D
    (Storable c.registry (.struct id args)) (load c id args) := by
  refine decides_stored fun d fields cells hheld hblocks => ?_
  refine .andThen (succeeds_locate hq.free) fun _ =>
    .andThen (hheld.succeeds_reader hr hargs hq fun u hu => ?_) fun _ =>
      succeeds_objectRequest hq hargs hlisted (by simp) rfl rfl
  refine hlisted _ (mem_append_right _ (mem_flatMap.2 ⟨u, hblocks ▸ hu, by simp⟩))

omit hr in
theorem decides_delete : Verdict (judging c N J) O D
    (Storable c.registry (.struct id args)) (delete c id args) := by
  refine decides_stored fun d fields cells _ _ => ?_
  exact .andThen (succeeds_deriveSlot hq.free) fun _ =>
    .andThen (succeeds_stepSlot hq.free) fun _ => .andThen (succeeds_importHost _) fun _ =>
      .andThen (succeeds_importHost _) fun _ => succeeds_objectRequest hq hargs hlisted (by simp) rfl rfl

end

end Storage

end MoveCodec
