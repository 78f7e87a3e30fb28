import MoveCodec.Package.Interface
import MoveCodec.Proofs.Wire.Class

/-!
# Types that the wire accepts

Several functions go through a shape on their own and refuse what they have no answer for: the
class of a type, its canonical name, its description, and the check that it can be decoded. They
accept the same types, up to objects without an identifier, which have a name but no class.
-/
namespace MoveCodec

open Shape

@[simp] theorem Error.kind?_prepend (step : String) (e : Error) :
    (e.prepend step).kind? = e.kind? := by
  cases e <;> rfl

variable {r : Registry}

/-! ## Names -/

mutual

theorem Shape.Classed.exists_canonicalName : ∀ {s : Shape}, s.Classed r →
    ∃ name, s.canonicalName r = .ok name
  | _, .bool => ⟨_, rfl⟩
  | _, .int _ => ⟨_, rfl⟩
  | _, .address => ⟨_, rfl⟩
  | _, .vector he => by
    obtain ⟨name, hname⟩ := he.exists_canonicalName
    exact ⟨name ++ "[]", by rw [canonicalName, hname]; rfl⟩
  | _, .enum hsimple => ⟨"uint8", by rw [canonicalName, if_pos hsimple]⟩
  | .tagged d _, .tagged htag => by
    rw [canonicalName]
    cases hd : d.tag with
    | txContext => exact absurd hd htag
    | _ => exact ⟨_, rfl⟩
  | .struct d _ fields, .struct _ hfields => by
    obtain ⟨names, hnames⟩ := hfields.exists_fieldNames d.name
    exact ⟨Wire.tuple names, by rw [canonicalName, hnames]; rfl⟩

theorem FieldShapes.Classed.exists_fieldNames : ∀ {fields : FieldShapes}, fields.Classed r →
    ∀ owner, ∃ names, fieldNames r owner fields = .ok names
  | _, .nil, _ => ⟨[], rfl⟩
  | _, .cons hs hrest, owner => by
    obtain ⟨first, hfirst⟩ := hs.exists_canonicalName
    obtain ⟨names, hnames⟩ := hrest.exists_fieldNames owner
    exact ⟨first :: names, by rw [fieldNames, hfirst, hnames]; rfl⟩

end

/-- The result is a value, or the refusal of an object without an identifier. -/
def LacksIdentity {α : Type} (x : Except Error α) : Prop :=
  (∃ a, x = .ok a) ∨ ∃ e, x = .error e ∧ e.kind? = some .missingIdentity

theorem LacksIdentity.within {α : Type} {x : Except Error α} (h : LacksIdentity x)
    (step : String) : LacksIdentity (within step x) := by
  rcases h with ⟨a, rfl⟩ | ⟨e, rfl, he⟩
  · exact .inl ⟨a, rfl⟩
  · exact .inr ⟨_, rfl, by rw [Error.kind?_prepend, he]⟩

theorem LacksIdentity.bind {α β : Type} {x : Except Error α} {f : α → Except Error β}
    (hx : LacksIdentity x) (hf : ∀ a, LacksIdentity (f a)) : LacksIdentity (x >>= f) := by
  rcases hx with ⟨a, rfl⟩ | ⟨e, rfl, he⟩
  · exact hf a
  · exact .inr ⟨e, rfl, he⟩

mutual

/-- A type that has a canonical name has a class, or an object in it has no identifier. -/
theorem Shape.lacksIdentity : ∀ {s : Shape} {name : String}, s.canonicalName r = .ok name →
    LacksIdentity (s.isDynamic r)
  | .bool, _, _ => .inl ⟨_, rfl⟩
  | .int _, _, _ => .inl ⟨_, rfl⟩
  | .address, _, _ => .inl ⟨_, rfl⟩
  | .vector e, _, h => by
    rw [canonicalName] at h
    obtain ⟨name, hname, -⟩ := Assembly.bind_eq_ok h
    rw [isDynamic]
    exact ((Shape.lacksIdentity hname).within "[]").bind fun _ => .inl ⟨_, rfl⟩
  | .enum d args, _, h => by
    rw [canonicalName] at h
    split at h
    · rename_i hsimple
      exact .inl ⟨false, by rw [isDynamic, if_pos hsimple]⟩
    · cases h
  | .tagged d args, _, h => by
    rw [canonicalName] at h
    rw [isDynamic]
    cases htag : d.tag with
    | txContext =>
      rw [htag] at h
      cases h
    | _ => exact .inl ⟨_, rfl⟩
  | .struct d args fields, _, h => by
    rw [canonicalName] at h
    obtain ⟨names, hnames, -⟩ := Assembly.bind_eq_ok h
    have hfields := FieldShapes.lacksIdentity hnames
    rw [isDynamic]
    split
    · refine .bind ?_ fun _ => hfields
      unfold Wire.requireIdentity
      split
      · exact .inl ⟨_, rfl⟩
      · exact .inr ⟨_, rfl, rfl⟩
    · exact hfields
  | .signer, _, h | .param _, _, h | .ref _ _, _, h | .missing _ _, _, h
  | .broken _ _ _, _, h | .endless _ _, _, h => by
    rw [canonicalName] at h
    cases h

theorem FieldShapes.lacksIdentity : ∀ {owner : String} {fields : FieldShapes}
    {names : List String}, fieldNames r owner fields = .ok names →
      LacksIdentity (fieldsDynamic r owner fields)
  | _, .nil, _, _ => .inl ⟨_, rfl⟩
  | owner, .cons name s rest, _, h => by
    rw [fieldNames] at h
    obtain ⟨first, hfirst, h⟩ := Assembly.bind_eq_ok h
    obtain ⟨names, hnames, -⟩ := Assembly.bind_eq_ok h
    rw [fieldsDynamic]
    refine ((Shape.lacksIdentity (within_eq_ok hfirst)).within _).bind fun a => ?_
    exact (FieldShapes.lacksIdentity hnames).bind fun b => .inl ⟨_, rfl⟩

end

/-! ## Descriptions -/

mutual

/-- A type that has a class has a description. -/
theorem Shape.Classed.exists_describe : ∀ {s : Shape}, s.Classed r → ∀ name,
    ∃ p, s.describe r name = .ok p
  | _, .vector he, name => by
    obtain ⟨p, hp⟩ := he.exists_describe ""
    simp only [describe, hp]
    exact ⟨_, rfl⟩
  | .struct d args fields, .struct hidentity hfields, name => by
    obtain ⟨b, hb⟩ : ∃ b, (Shape.struct d args fields).isDynamic r = .ok b :=
      (Classed.struct hidentity hfields).exists_isDynamic
    obtain ⟨ps, hps⟩ := hfields.exists_describeFields d.name
    rw [describe, hps]
    exact ⟨_, by rw [hb]; rfl⟩
  | .bool, h, _ | .int _, h, _ | .address, h, _ | .enum _ _, h, _ | .tagged _ _, h, _ => by
    obtain ⟨name, hname⟩ := h.exists_canonicalName
    simp only [describe, hname]
    exact ⟨_, rfl⟩

theorem FieldShapes.Classed.exists_describeFields : ∀ {fields : FieldShapes}, fields.Classed r →
    ∀ owner, ∃ ps, describeFields r owner fields = .ok ps
  | _, .nil, _ => ⟨[], rfl⟩
  | .cons name _ _, .cons hs hrest, owner => by
    obtain ⟨p, hp⟩ := hs.exists_describe name
    obtain ⟨ps, hps⟩ := hrest.exists_describeFields owner
    exact ⟨p :: ps, by rw [describeFields, hp, hps]; rfl⟩

end

/-! ## Decoding -/

/-- A definition occurs in a type: it is the type's own, or it occurs in the elements of a vector or
in a field of a plain struct. -/
inductive Registry.Occurs (r : Registry) (d : StructDef) : MoveType → Prop
  | self {id : DefId} {args : List MoveType} : r.structOf id args = .ok d →
      Occurs r d (.struct id args)
  | elem {t : MoveType} : Occurs r d t → Occurs r d (.vector t)
  | field {id : DefId} {args : List MoveType} {d' : StructDef} {fs : List Field} {f : Field} :
      r.structOf id args = .ok d' → d'.tag = .none → r.fields id args = .ok fs → f ∈ fs →
      Occurs r d f.type → Occurs r d (.struct id args)

/-- Neither a unique identifier nor an object occurs in the type. -/
def Registry.Plain (r : Registry) (t : MoveType) : Prop :=
  ∀ d, r.Occurs d t → d.tag ≠ .uid ∧ d.isObject = false

section

variable {t : MoveType} {id : DefId} {args : List MoveType} {d : StructDef}

theorem Registry.plain_vector : r.Plain (.vector t) ↔ r.Plain t := by
  refine ⟨fun h d hd => h d (.elem hd), fun h d hd => ?_⟩
  cases hd with
  | elem hd => exact h d hd

theorem Registry.plain_tagged (hd : r.structOf id args = .ok d) (htag : d.tag ≠ .none) :
    r.Plain (.struct id args) ↔ d.tag ≠ .uid ∧ d.isObject = false := by
  refine ⟨fun h => h d (.self hd), fun h d' hd' => ?_⟩
  cases hd' with
  | self hself =>
    cases hd.symm.trans hself
    exact h
  | field hself hnone =>
    cases hd.symm.trans hself
    exact absurd hnone htag

theorem Registry.plain_struct {fs : List Field} (hd : r.structOf id args = .ok d)
    (htag : d.tag = .none) (hfs : r.fields id args = .ok fs) :
    r.Plain (.struct id args) ↔ d.isObject = false ∧ ∀ t ∈ fs.map (·.type), r.Plain t := by
  constructor
  · intro h
    refine ⟨(h d (.self hd)).2, fun t ht d' hd' => ?_⟩
    obtain ⟨f, hf, rfl⟩ := List.mem_map.1 ht
    exact h d' (.field hd htag hfs hf hd')
  · rintro ⟨hobject, hfields⟩ d' hd'
    cases hd' with
    | self hself =>
      cases hd.symm.trans hself
      exact ⟨by simp [htag], hobject⟩
    | field _ _ hfs' hf hin =>
      cases hfs.symm.trans hfs'
      exact hfields _ (List.mem_map_of_mem hf) d' hin

end

/-- A type passes the check if nothing in it comes from storage. -/
theorem Shape.Classed.checkDecodable_iff {s : Shape} (h : s.Classed r) :
    s.Follows r → (s.checkDecodable = .ok () ↔ r.Plain s.type) := by
  refine h.inductOn (P := fun s => s.Follows r → (s.checkDecodable = .ok () ↔ r.Plain s.type))
    (Q := fun fields => fields.Follow r → ∀ owner,
      (checkDecodableFields owner fields = .ok () ↔ ∀ t ∈ fields.types, r.Plain t))
    ?bool ?int ?address ?vector ?enum ?tagged ?struct ?nil ?cons
  case bool =>
    intro _
    exact ⟨fun _ d hd => (by cases hd), fun _ => rfl⟩
  case int =>
    intro _ _
    exact ⟨fun _ d hd => (by cases hd), fun _ => rfl⟩
  case address =>
    intro _
    exact ⟨fun _ d hd => (by cases hd), fun _ => rfl⟩
  case enum =>
    intro _ _ _ _
    exact ⟨fun _ d hd => (by cases hd), fun _ => rfl⟩
  case vector =>
    intro e _ ih hs
    have hstep : (Shape.vector e).checkDecodable = .ok () ↔ e.checkDecodable = .ok () :=
      ⟨within_eq_ok, fun h => by rw [checkDecodable, h]; rfl⟩
    rw [hstep, ih hs, Shape.type, Registry.plain_vector]
  case tagged =>
    intro d args _ hs
    rw [Shape.type, Registry.plain_tagged hs.1 hs.2, checkDecodable]
    split_ifs with hbad
    · simpa using fun htag => by simpa [htag] using hbad
    · simpa using hbad
  case struct =>
    intro d args fields _ _ ih hs
    obtain ⟨hd, htag, ⟨fs, hfs, htypes⟩, hfollow, -⟩ := hs
    have hof : r.fields d.id args = .ok fs := by
      rw [Registry.fields, hd]
      exact hfs
    rw [Shape.type, Registry.plain_struct hd htag hof, ← htypes, ← ih hfollow d.name,
      checkDecodable]
    split_ifs with hobject <;> simp [hobject]
  case nil =>
    intro _ _
    exact ⟨fun _ _ ht => (by cases ht), fun _ => rfl⟩
  case cons =>
    intro name s rest _ ih _ ihrest hs owner
    rw [FieldShapes.types, List.forall_mem_cons, ← ih hs.1, ← ihrest hs.2 owner,
      checkDecodableFields]
    constructor
    · intro h
      obtain ⟨⟨⟩, hfirst, hfields⟩ := Assembly.bind_eq_ok h
      exact ⟨within_eq_ok hfirst, hfields⟩
    · rintro ⟨hfirst, hfields⟩
      rw [hfirst]
      exact hfields

end MoveCodec
