import MoveCodec.Proofs.Types.Shapes

/-!
# Types that have a class

A type has a class if it is found static or dynamic, which fails for types without a wire form. The
shapes of these types are described by their own rules, so that other facts about them follow by
induction without going through the search for the class again.
-/
namespace MoveCodec

open Shape

variable {r : Registry} {s : Shape}

mutual

/-- The type has a class: it is static or dynamic. -/
inductive Shape.Classed (r : Registry) : Shape → Prop
  | bool : Shape.Classed r .bool
  | int (w : IntWidth) : Shape.Classed r (.int w)
  | address : Shape.Classed r .address
  | vector {e : Shape} : Shape.Classed r e → Shape.Classed r (.vector e)
  | enum {d : EnumDef} {args : List MoveType} : d.isSimple = true → Shape.Classed r (.enum d args)
  | tagged {d : StructDef} {args : List MoveType} : d.tag ≠ .txContext →
      Shape.Classed r (.tagged d args)
  | struct {d : StructDef} {args : List MoveType} {fields : FieldShapes} :
      (d.isObject = true → Wire.requireIdentity r d fields.firstType? = .ok ()) →
      FieldShapes.Classed r fields → Shape.Classed r (.struct d args fields)

inductive FieldShapes.Classed (r : Registry) : FieldShapes → Prop
  | nil : FieldShapes.Classed r .nil
  | cons {name : String} {s : Shape} {rest : FieldShapes} : Shape.Classed r s →
      FieldShapes.Classed r rest → FieldShapes.Classed r (.cons name s rest)

end

/-- Induction over a shape that has a class, and over its fields. -/
theorem Shape.Classed.inductOn {P : Shape → Prop} {Q : FieldShapes → Prop} (h : s.Classed r)
    (bool : P .bool) (int : ∀ w, P (.int w)) (address : P .address)
    (vector : ∀ e, e.Classed r → P e → P (.vector e))
    (enum : ∀ d args, d.isSimple = true → P (.enum d args))
    (tagged : ∀ d args, d.tag ≠ .txContext → P (.tagged d args)) (struct : ∀ d args fields,
      (d.isObject = true → Wire.requireIdentity r d fields.firstType? = .ok ()) →
        FieldShapes.Classed r fields → Q fields → P (.struct d args fields)) (nil : Q .nil)
    (cons : ∀ name s rest, s.Classed r → P s → FieldShapes.Classed r rest → Q rest →
      Q (.cons name s rest)) : P s :=
  @Shape.Classed.rec r (fun s _ => P s) (fun fields _ => Q fields) bool int address
    (fun {e} he ih => vector e he ih) (fun {d args} hd => enum d args hd)
    (fun {d args} hd => tagged d args hd)
    (fun {d args fields} hd hf ih => struct d args fields hd hf ih) nil
    (fun {name s rest} hs hrest ih ihrest => cons name s rest hs ih hrest ihrest) s h

mutual

theorem Shape.classed_of_isDynamic : ∀ {s : Shape} {b : Bool}, s.isDynamic r = .ok b →
    s.Classed r
  | .bool, _, _ => .bool
  | .int w, _, _ => .int w
  | .address, _, _ => .address
  | .vector e, _, h => by
    rw [isDynamic] at h
    obtain ⟨b, hb, -⟩ := Assembly.bind_eq_ok h
    exact .vector (Shape.classed_of_isDynamic (within_eq_ok hb))
  | .enum d args, _, h => by
    rw [isDynamic] at h
    split at h
    · exact .enum ‹_›
    · cases h
  | .tagged d args, _, h => by
    refine .tagged fun htag => ?_
    rw [isDynamic, htag] at h
    cases h
  | .struct d args fields, _, h => by
    refine .struct (fun hobject => ?_)
      (FieldShapes.classed_of_fieldsDynamic (fieldsDynamic_of_struct h))
    rw [isDynamic, if_pos hobject] at h
    exact (Assembly.bind_eq_ok h).choose_spec.1
  | .signer, _, h | .param _, _, h | .ref _ _, _, h | .missing _ _, _, h
  | .broken _ _ _, _, h | .endless _ _, _, h => by
    rw [isDynamic] at h
    cases h

theorem FieldShapes.classed_of_fieldsDynamic : ∀ {owner : String} {fields : FieldShapes}
    {b : Bool}, fieldsDynamic r owner fields = .ok b → fields.Classed r
  | _, .nil, _, _ => .nil
  | _, .cons name s rest, _, h => by
    rw [fieldsDynamic] at h
    obtain ⟨a, ha, h⟩ := Assembly.bind_eq_ok h
    obtain ⟨b, hb, -⟩ := Assembly.bind_eq_ok h
    exact .cons (Shape.classed_of_isDynamic (within_eq_ok ha))
      (FieldShapes.classed_of_fieldsDynamic hb)

end

mutual

theorem Shape.Classed.exists_isDynamic : ∀ {s : Shape}, s.Classed r → ∃ b, s.isDynamic r = .ok b
  | _, .bool => ⟨false, rfl⟩
  | _, .int _ => ⟨false, rfl⟩
  | _, .address => ⟨false, rfl⟩
  | _, .vector he => by
    obtain ⟨b, hb⟩ := he.exists_isDynamic
    exact ⟨true, by rw [isDynamic, hb]; rfl⟩
  | _, .enum hsimple => ⟨false, by rw [isDynamic, if_pos hsimple]⟩
  | .tagged d _, .tagged htag => by
    rw [isDynamic]
    cases hd : d.tag with
    | txContext => exact absurd hd htag
    | _ => exact ⟨_, rfl⟩
  | .struct d _ fields, .struct hidentity hfields => by
    obtain ⟨b, hb⟩ := hfields.exists_fieldsDynamic d.name
    refine ⟨b, ?_⟩
    rw [isDynamic]
    split
    · rename_i hobject
      rw [hidentity hobject]
      exact hb
    · exact hb

theorem FieldShapes.Classed.exists_fieldsDynamic : ∀ {fields : FieldShapes}, fields.Classed r →
    ∀ owner, ∃ b, fieldsDynamic r owner fields = .ok b
  | _, .nil, _ => ⟨false, rfl⟩
  | _, .cons hs hrest, owner => by
    obtain ⟨a, ha⟩ := hs.exists_isDynamic
    obtain ⟨b, hb⟩ := hrest.exists_fieldsDynamic owner
    exact ⟨a || b, by rw [fieldsDynamic, ha, hb]; rfl⟩

end

theorem Shape.classed_iff : s.Classed r ↔ ∃ b, s.isDynamic r = .ok b :=
  ⟨Classed.exists_isDynamic, fun ⟨_, h⟩ => classed_of_isDynamic h⟩

theorem Shape.Classed.exists_headSize (h : s.Classed r) : ∃ n, s.headSize r = .ok n := by
  obtain ⟨b, hb⟩ := h.exists_isDynamic
  rw [headSize, hb]
  cases b <;> exact ⟨_, rfl⟩

end MoveCodec
