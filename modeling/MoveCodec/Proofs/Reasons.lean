import MoveCodec.Codec.Payload
import MoveCodec.Proofs.Types.Shapes

/-!
# Reasons of refusals

The checks that come before code is generated say what is wrong with their input. `Reasoned x` says
that `x`, if it fails, does not report a fault of the library itself.
-/
namespace MoveCodec

/-- The error, or one that it wraps, reports a fault of the library. -/
def Error.isInternal (e : Error) : Bool := e.fits (.report { kind := some .internal })

@[simp] theorem Error.isInternal_prepend (step : String) (e : Error) :
    (e.prepend step).isInternal = e.isInternal := by
  cases e <;> rfl

/-- A failure of the computation is not a fault of the library. -/
def Reasoned {α : Type} (x : Except Error α) : Prop := ∀ e, x = .error e → e.isInternal = false

namespace Reasoned

variable {α β : Type} {x : Except Error α}

theorem ok (a : α) : Reasoned (.ok a) := nofun

theorem error {e : Error} (h : e.isInternal = false) : Reasoned (.error e : Except Error α) := by
  rintro _ ⟨⟩
  exact h

theorem bind {k : α → Except Error β} (h : Reasoned x) (hk : ∀ a, Reasoned (k a)) :
    Reasoned (x >>= k) := by
  cases x with
  | ok a => exact hk a
  | error e => exact error (h e rfl)

theorem map {f : α → β} (h : Reasoned x) : Reasoned (f <$> x) :=
  bind h fun a => ok (f a)

theorem within {step : String} (h : Reasoned x) : Reasoned (within step x) := by
  cases x with
  | ok a => exact ok a
  | error e => exact error (by simpa using h e rfl)

theorem mapM {f : α → Except Error β} (h : ∀ a, Reasoned (f a)) (as : List α) :
    Reasoned (as.mapM f) := by
  induction as with
  | nil => exact ok []
  | cons a as ih =>
    rw [List.mapM_cons]
    exact bind (h a) fun b => bind ih fun bs => ok (b :: bs)

theorem forM {f : α → Except Error Unit} (h : ∀ a, Reasoned (f a)) (as : List α) :
    Reasoned (as.forM f) := by
  induction as with
  | nil => exact ok ()
  | cons a as ih => exact bind (h a) fun _ => ih

theorem flatMapM {f : α → Except Error (List β)} {as : List α} (h : ∀ a ∈ as, Reasoned (f a)) :
    Reasoned (as.flatMapM f) := by
  have hloop : ∀ acc, Reasoned (List.flatMapM.loop f as acc) := by
    induction as with
    | nil => exact fun acc => ok _
    | cons a as ih =>
      obtain ⟨ha, has⟩ := List.forall_mem_cons.1 h
      exact fun acc => bind ha fun bs => ih has (bs :: acc)
  exact hloop []

end Reasoned

/-! ## Types and definitions -/

theorem MoveType.reasoned_stackSize (t : MoveType) : Reasoned t.stackSize := by
  unfold stackSize
  split
  all_goals first | exact .ok _ | exact .error rfl

theorem MoveType.reasoned_substitute (args : List MoveType) (t : MoveType) :
    Reasoned (t.substitute args) := by
  rw [substitute_eq]
  cases t.unboundParam? args.length with
  | none => exact .ok _
  | some i => exact .error rfl

namespace Registry

variable {r : Registry}

theorem reasoned_checkArity (name : String) (arity : Int) (args : List MoveType) :
    Reasoned (checkArity name arity args) := by
  unfold checkArity
  split
  · exact .ok _
  · exact .error rfl

theorem reasoned_structOf (id : DefId) (args : List MoveType) : Reasoned (r.structOf id args) := by
  unfold structOf
  split
  · exact .error rfl
  · exact .bind (reasoned_checkArity _ _ _) fun _ => .ok _

theorem reasoned_enumOf (id : DefId) (args : List MoveType) : Reasoned (r.enumOf id args) := by
  unfold enumOf
  split
  · exact .error rfl
  · exact .bind (reasoned_checkArity _ _ _) fun _ => .ok _

theorem reasoned_instantiate (d : StructDef) (args : List MoveType) :
    Reasoned (instantiate d args) := by
  unfold instantiate
  split
  · exact .ok _
  · exact .mapM (fun f : Field => .bind (.within (MoveType.reasoned_substitute args f.type))
      fun _ => .ok _) _

theorem reasoned_fields (id : DefId) (args : List MoveType) : Reasoned (r.fields id args) :=
  .bind (reasoned_structOf id args) fun d => reasoned_instantiate d args

theorem reasoned_recordPlaces (ts : List MoveType) : Reasoned (recordPlaces ts) :=
  .map (.mapM MoveType.reasoned_stackSize ts)

theorem reasoned_fieldPlaces (id : DefId) (args : List MoveType) :
    Reasoned (r.fieldPlaces id args) :=
  .bind (reasoned_fields id args) fun fs =>
    .map (.mapM (fun f : Field => .within (MoveType.reasoned_stackSize f.type)) fs)

end Registry

/-! ## Shapes -/

namespace Shape

variable {r : Registry}

/-- The faults of definitions inside a shape are not faults of the library. -/
theorem Follows.isInternal_missing {t : MoveType} {e : Error} (h : (missing t e).Follows r) :
    e.isInternal = false := by
  obtain ⟨id, args, h⟩ | ⟨id, args, h⟩ := h
  · exact Registry.reasoned_structOf id args e h
  · exact Registry.reasoned_enumOf id args e h

theorem isInternal_reference (phase : Phase) (m : Bool) (t : Shape) :
    (Wire.reference r phase m t).isInternal = false := by
  cases t <;> rfl

mutual

theorem Follows.reasoned_isDynamic : ∀ {s : Shape}, s.Follows r → Reasoned (s.isDynamic r)
  | .bool, _ | .int _, _ | .address, _ | .signer, _ | .param _, _ | .endless _ _, _ | .enum _ _, _
  | .tagged _ _, _ => by
    rw [isDynamic]
    (try split) <;> first | exact .ok _ | exact .error rfl
  | .ref m t, _ => by
    rw [isDynamic]
    exact .error (isInternal_reference ..)
  | .vector e, h => by
    rw [isDynamic]
    exact .bind (.within (Follows.reasoned_isDynamic (s := e) h)) fun _ => .ok _
  | .struct d args fields, h => by
    rw [isDynamic]
    have hfields := reasoned_fieldsDynamic h.2.2.2.1 d.name
    dsimp only
    split
    · refine .bind ?_ fun _ => hfields
      unfold Wire.requireIdentity
      split
      · exact .ok _
      · exact .error rfl
    · exact hfields
  | .missing t e, h => by
    rw [isDynamic]
    exact .error h.isInternal_missing
  | .broken d args e, h => by
    rw [isDynamic]
    exact .error (Registry.reasoned_instantiate d args e h)

theorem reasoned_fieldsDynamic : ∀ {fields : FieldShapes},
    fields.Follow r → ∀ owner, Reasoned (fieldsDynamic r owner fields)
  | .nil, _, _ => by
    rw [fieldsDynamic]
    exact .ok _
  | .cons name s rest, h, owner => by
    rw [fieldsDynamic]
    exact .bind (.within (Follows.reasoned_isDynamic h.1)) fun _ =>
      .bind (reasoned_fieldsDynamic h.2 owner) fun _ => .ok _

end

theorem Follows.reasoned_headSize {s : Shape} (h : s.Follows r) : Reasoned (s.headSize r) := by
  refine .bind h.reasoned_isDynamic fun dynamic => ?_
  cases dynamic <;> exact .ok _

mutual

theorem Follows.reasoned_canonicalName : ∀ {s : Shape}, s.Follows r →
    Reasoned (s.canonicalName r)
  | .bool, _ | .int _, _ | .address, _ | .signer, _ | .param _, _ | .endless _ _, _ | .enum _ _, _
  | .tagged _ _, _ => by
    rw [canonicalName]
    (try split) <;> first | exact .ok _ | exact .error rfl
  | .ref m t, _ => by
    rw [canonicalName]
    exact .error (isInternal_reference ..)
  | .vector e, h => by
    rw [canonicalName]
    exact .bind (Follows.reasoned_canonicalName (s := e) h) fun _ => .ok _
  | .struct d args fields, h => by
    rw [canonicalName]
    exact .bind (reasoned_fieldNames h.2.2.2.1 d.name) fun _ => .ok _
  | .missing t e, h => by
    rw [canonicalName]
    exact .error h.isInternal_missing
  | .broken d args e, h => by
    rw [canonicalName]
    exact .error (Registry.reasoned_instantiate d args e h)

theorem reasoned_fieldNames : ∀ {fields : FieldShapes},
    fields.Follow r → ∀ owner, Reasoned (fieldNames r owner fields)
  | .nil, _, _ => by
    rw [fieldNames]
    exact .ok _
  | .cons name s rest, h, owner => by
    rw [fieldNames]
    exact .bind (.within (Follows.reasoned_canonicalName h.1)) fun _ =>
      .bind (reasoned_fieldNames h.2 owner) fun _ => .ok _

end

mutual

theorem reasoned_checkDecodable : ∀ s : Shape, Reasoned s.checkDecodable
  | .vector e => by
    rw [checkDecodable]
    exact .within (reasoned_checkDecodable e)
  | .struct d args fields => by
    rw [checkDecodable]
    split
    · exact .error rfl
    · exact reasoned_checkDecodableFields d.name fields
  | .bool | .int _ | .address | .signer | .param _ | .ref _ _ | .enum _ _ | .missing _ _
  | .broken _ _ _ | .endless _ _ | .tagged _ _ => by
    unfold checkDecodable
    (try split) <;> first | exact .ok _ | exact .error rfl

theorem reasoned_checkDecodableFields (owner : String) : ∀ fields : FieldShapes,
    Reasoned (checkDecodableFields owner fields)
  | .nil => by
    rw [checkDecodableFields]
    exact .ok _
  | .cons name s rest => by
    rw [checkDecodableFields]
    exact .bind (.within (reasoned_checkDecodable s)) fun _ =>
      reasoned_checkDecodableFields owner rest

end

mutual

theorem Follows.reasoned_cells : ∀ {s : Shape}, s.Follows r → ∀ path,
    Reasoned (s.cells r path)
  | .bool, _, _ | .int _, _, _ | .address, _, _ | .vector _, _, _ | .signer, _, _ | .param _, _, _
  | .endless _ _, _, _ | .ref _ _, _, _ | .enum _ _, _, _ | .tagged _ _, _, _ => by
    unfold cells
    (try split) <;> first | exact .ok _ | exact .error rfl
  | .struct d args fields, h, path => by
    rw [cells]
    exact reasoned_fieldCells h.2.2.2.1 path
  | .missing t e, h, _ => by
    rw [cells]
    exact .error h.isInternal_missing
  | .broken d args e, h, _ => by
    rw [cells]
    exact .error (Registry.reasoned_instantiate d args e h)

theorem reasoned_fieldCells : ∀ {fields : FieldShapes},
    fields.Follow r → ∀ path, Reasoned (fieldCells r path fields)
  | .nil, _, _ => by
    rw [fieldCells]
    exact .ok _
  | .cons name s rest, h, path => by
    rw [fieldCells]
    exact .bind (Follows.reasoned_cells h.1 _) fun _ =>
      .bind (reasoned_fieldCells h.2 path) fun _ => .ok _

end

end Shape

namespace Registry

variable {r : Registry}

theorem reasoned_fieldShapes (id : DefId) (args : List MoveType) :
    Reasoned (r.fieldShapes id args) :=
  .bind (reasoned_fields id args) fun _ => .ok _

theorem follows_of_fieldShapes {id : DefId} {args : List MoveType} {fields : FieldShapes}
    (h : r.fieldShapes id args = .ok fields) : ∀ f ∈ fields.toList, f.2.Follows r := by
  obtain ⟨fs, -, h⟩ := Assembly.bind_eq_ok h
  cases h
  rw [FieldShapes.toList_ofList]
  intro f hf
  obtain ⟨g, -, rfl⟩ := List.mem_map.1 hf
  exact Shape.follows_shape g.type

theorem reasoned_storageLayout (id : DefId) (args : List MoveType) :
    Reasoned (r.storageLayout id args) := by
  refine .bind (reasoned_structOf id args) fun d => ?_
  cases hfields : r.fieldShapes id args with
  | error e => exact .error (reasoned_fieldShapes id args e hfields)
  | ok fields =>
    exact .flatMapM fun f hf => (follows_of_fieldShapes hfields f hf).reasoned_cells _

theorem reasoned_requireObject (id : DefId) (args : List MoveType) :
    Reasoned (r.requireObject id args) := by
  refine .bind (reasoned_structOf id args) fun d => ?_
  split
  · exact .error rfl
  · refine .bind (reasoned_fields id args) fun fs => ?_
    split
    · exact .error rfl
    · exact .ok _

theorem reasoned_payloadTypes (phase : Phase) (d : StructDef) :
    Reasoned (r.payloadTypes phase d) := by
  unfold payloadTypes
  split
  · exact .error rfl
  · exact .bind (reasoned_fields _ _) fun _ => .ok _

theorem reasoned_payloadSignature (d : StructDef) : Reasoned (r.payloadSignature d) :=
  .bind (reasoned_payloadTypes .selector d) fun ts => .bind
    (.mapM (fun t => .within (Shape.follows_shape t).reasoned_canonicalName) ts) fun _ => .ok _

end Registry

theorem FieldShapes.reasoned_layout (fields : FieldShapes) : Reasoned fields.layout :=
  .map (.mapM (fun f : String × Shape => .within (MoveType.reasoned_stackSize f.2.type)) _)

namespace Codec

theorem reasoned_unbox (phase : Phase) (t : MoveType) : Reasoned (unbox phase t) := by
  unfold unbox
  split
  · exact .error rfl
  · exact .ok _
  · exact .ok _

theorem reasoned_checkRole (d : StructDef) (role : StructRole) (what : String) :
    Reasoned (checkRole d role what) := by
  unfold checkRole
  split
  · exact .ok _
  · exact .error rfl

theorem reasoned_payloadFields (c : Context) (d : StructDef) : Reasoned (payloadFields c d) :=
  .bind (Registry.reasoned_payloadTypes .pack d) fun _ =>
    .bind (Registry.reasoned_fieldPlaces d.id []) fun _ => .ok _

theorem reasoned_checkTopics (r : Registry) (d : StructDef) (ts : List MoveType) :
    Reasoned (checkTopics r d ts) := by
  refine .forM (fun t => .bind (.within (Shape.follows_shape t).reasoned_isDynamic) fun dynamic =>
    .bind (Shape.follows_shape t).reasoned_headSize fun head => ?_) ts
  split
  · exact .error rfl
  · exact .ok _

end Codec

end MoveCodec
