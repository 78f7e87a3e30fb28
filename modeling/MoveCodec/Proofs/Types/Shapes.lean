import MoveCodec.Proofs.Types.Forms
import MoveCodec.Proofs.Types.Substitution

/-!
# Shapes and forms

A shape agrees with the definitions of its registry at every depth. What generators read off a
shape, whether it is dynamic and how wide its head is, is what the form of its type says.
-/
namespace MoveCodec

open List

variable {id : DefId} {args : List MoveType} {d : StructDef} {env : List Shape} {r : Registry}
  {enter : StructDef → List MoveType → List Shape → Shape} {fields : FieldShapes}

def FieldShapes.types : FieldShapes → List MoveType
  | .nil => []
  | .cons _ s rest => s.type :: rest.types

def FieldShapes.names : FieldShapes → List String
  | .nil => []
  | .cons name _ rest => name :: rest.names

mutual

def Shape.Follows (r : Registry) : Shape → Prop
  | .vector e => e.Follows r
  | .enum d args => r.enumOf d.id args = .ok d
  | .tagged d args => r.structOf d.id args = .ok d ∧ d.tag ≠ .none
  | .struct d args fields =>
    r.structOf d.id args = .ok d ∧ d.tag = .none ∧
      (∃ fs, Registry.instantiate d args = .ok fs ∧ fields.types = fs.map (·.type)) ∧
      fields.Follow r ∧ fields.names = d.fields.map (·.name)
  | .missing _ e =>
    (∃ id args, r.structOf id args = .error e) ∨ ∃ id args, r.enumOf id args = .error e
  | .broken d args e => Registry.instantiate d args = .error e
  | _ => True

def FieldShapes.Follow (r : Registry) : FieldShapes → Prop
  | .nil => True
  | .cons _ s rest => s.Follows r ∧ rest.Follow r

end

theorem FieldShapes.types_ofList (fs : List (String × Shape)) :
    (ofList fs).types = fs.map (·.2.type) := by
  induction fs with
  | nil => rfl
  | cons f fs ih => simp [ofList, types, ih]

theorem FieldShapes.names_ofList (fs : List (String × Shape)) :
    (ofList fs).names = fs.map (·.1) := by
  induction fs with
  | nil => rfl
  | cons f fs ih => simp [ofList, names, ih]

theorem FieldShapes.follow_ofList {fs : List (String × Shape)} (h : ∀ f ∈ fs, f.2.Follows r) :
    (ofList fs).Follow r := by
  induction fs with
  | nil => trivial
  | cons f fs ih => exact ⟨h f (by simp), ih fun g hg => h g (by simp [hg])⟩

theorem Registry.checkArity_bind_eq_ok {α : Type} {name : String} {arity : Int} {a b : α} :
    (checkArity name arity args >>= fun _ => pure a) = .ok b ↔
      (args.length : Int) = arity ∧ a = b := by
  unfold checkArity
  split_ifs with h <;> simp [bind, Except.bind, pure, Except.pure, h]

theorem Registry.structOf_eq_ok : r.structOf id args = .ok d ↔
    r.findStruct? id = some d ∧ (args.length : Int) = d.arity := by
  unfold structOf
  cases r.findStruct? id with
  | none => simp
  | some d' => exact checkArity_bind_eq_ok.trans (by grind)

theorem Registry.enumOf_eq_ok {d : EnumDef} : r.enumOf id args = .ok d ↔
    r.findEnum? id = some d ∧ (args.length : Int) = d.arity := by
  unfold enumOf
  cases r.findEnum? id with
  | none => simp
  | some d' => exact checkArity_bind_eq_ok.trans (by grind)

theorem Registry.id_of_structOf (h : r.structOf id args = .ok d) : d.id = id := by
  simpa using find?_some (structOf_eq_ok.1 h).1

theorem Registry.tagOf_eq (h : r.structOf id args = .ok d) : r.tagOf (.struct id args) = d.tag := by
  rw [tagOf, (structOf_eq_ok.1 h).1]
  rfl

theorem Registry.id_of_enumOf {d : EnumDef} (h : r.enumOf id args = .ok d) : d.id = id := by
  simpa using find?_some (enumOf_eq_ok.1 h).1

namespace Shape

variable {r : Registry}

theorem ofTypes_eq (enter : StructDef → List MoveType → List Shape → Shape) (env : List Shape)
    (ts : List MoveType) : ofTypes r enter env ts = ts.map (ofType r enter env) := by
  induction ts with
  | nil => rw [ofTypes, map_nil]
  | cons t ts ih => rw [ofTypes, ih, map_cons]

/-! ## Types of shapes -/

theorem type_ofType_enum (enter : StructDef → List MoveType → List Shape → Shape)
    (env : List Shape) (id : DefId) (args : List MoveType) :
    (ofType r enter env (.enum id args)).type =
      .enum id ((ofTypes r enter env args).map type) := by
  rw [ofType]
  split
  · rename_i d hd
    rw [← Registry.id_of_enumOf hd]
    rfl
  · rfl

theorem within_eq_ok {α : Type} {step : String} {x : Except Error α} {a : α}
    (h : within step x = .ok a) : x = .ok a := by
  cases x with
  | error e => cases h
  | ok b => exact h

theorem map_eq_ok {ε α β : Type} {f : α → β} {x : Except ε α} {b : β} (h : f <$> x = .ok b) :
    ∃ a, x = .ok a ∧ b = f a := by
  cases x with
  | error e => cases h
  | ok a =>
    cases h
    exact ⟨a, rfl, rfl⟩

section

variable {enter : StructDef → List MoveType → List Shape → Shape}
  (henter : ∀ d ts shapes, (enter d ts shapes).type = .struct d.id ts)

include henter

theorem type_ofType_struct (env : List Shape) (id : DefId) (args : List MoveType) :
    (ofType r enter env (.struct id args)).type =
      .struct id ((ofTypes r enter env args).map type) := by
  rw [ofType]
  split
  · rename_i d hd
    rw [← Registry.id_of_structOf hd]
    split
    · exact henter d _ _
    · rfl
  · rfl

/-- The shape of a type in an environment is of the type with its parameters replaced. -/
theorem type_ofType (t : MoveType) :
    (ofType r enter env t).type = t.mapParams (MoveType.argument (env.map type)) := by
  induction t using MoveType.rec_args with
  | struct id args ih =>
    rw [type_ofType_struct henter, ofTypes_eq, map_map, MoveType.mapParams,
      MoveType.mapParamsAll_eq]
    exact congrArg _ (map_congr_left ih)
  | enum id args ih =>
    rw [type_ofType_enum, ofTypes_eq, map_map, MoveType.mapParams, MoveType.mapParamsAll_eq]
    exact congrArg _ (map_congr_left ih)
  | vector e ih | ref _ e ih => rw [ofType, type, ih, MoveType.mapParams]
  | param i =>
    rw [ofType, MoveType.mapParams, MoveType.argument, getElem?_map]
    cases env[i.toNat]? <;> rfl
  | _ =>
    rw [ofType, type]
    rfl

end

/-- The shape of a struct inside the definitions of `path`. -/
def enterAt (r : Registry) (depth : Nat) (path : List DefId) (d : StructDef) (ts : List MoveType)
    (shapes : List Shape) : Shape :=
  match depth with
  | 0 => .endless d ts
  | depth + 1 =>
    if d.id ∈ path then .endless d ts
    else match Registry.instantiate d ts with
      | .error e => .broken d ts e
      | .ok _ => .struct d ts (.ofList (d.fields.map fun f =>
          (f.name, expand r depth (d.id :: path) shapes f.type)))

theorem expand_eq (depth : Nat) (path : List DefId) (env : List Shape) (t : MoveType) :
    expand r depth path env t = ofType r (enterAt r depth path) env t := by
  cases depth with
  | zero => rfl
  | succ depth => rfl

theorem type_enterAt (depth : Nat) (path : List DefId) (d : StructDef) (ts : List MoveType)
    (shapes : List Shape) : (enterAt r depth path d ts shapes).type = .struct d.id ts := by
  unfold enterAt
  split
  · rfl
  · split
    · rfl
    · split <;> rfl

/-! ## Shapes follow the registry -/

theorem follows_ofType (henv : ∀ s ∈ env, s.Follows r)
    (henter : ∀ d ts shapes, r.structOf d.id ts = .ok d → d.tag = .none → shapes.map type = ts →
      (∀ s ∈ shapes, s.Follows r) → (enter d ts shapes).Follows r) (t : MoveType) :
    (ofType r enter env t).Follows r := by
  induction t using MoveType.rec_args with
  | struct id args ih =>
    rw [ofType]
    split
    · rename_i d hd
      have hself : r.structOf d.id ((ofTypes r enter env args).map type) = .ok d := by
        rw [Registry.id_of_structOf hd, hd]
      split
      · rename_i htag
        refine henter d _ _ hself htag rfl fun s hs => ?_
        rw [ofTypes_eq] at hs
        obtain ⟨a, ha, rfl⟩ := mem_map.1 hs
        exact ih a ha
      · rename_i htag
        exact ⟨hself, htag⟩
    · exact .inl ⟨_, _, ‹_›⟩
  | enum id args ih =>
    rw [ofType]
    split
    · rename_i d hd
      rw [Follows, Registry.id_of_enumOf hd, hd]
    · exact .inr ⟨_, _, ‹_›⟩
  | param i =>
    rw [ofType]
    cases hi : env[i.toNat]? with
    | none => trivial
    | some s => exact henv s (mem_of_getElem? hi)
  | vector e ih =>
    rw [ofType]
    exact ih
  | _ =>
    rw [ofType]
    trivial

/-- Field types under an environment of arguments are the instantiated ones. -/
theorem types_of_instantiate {shapes : List Shape} {fields : List Field}
    (henter : ∀ d ts shapes, (enter d ts shapes).type = .struct d.id ts)
    (h : Registry.instantiate d (shapes.map type) = .ok fields) :
    d.fields.map (fun f => (ofType r enter shapes f.type).type) = fields.map (·.type) := by
  rw [(Registry.instantiate_eq_ok.1 h).2, map_map]
  exact map_congr_left fun f _ => type_ofType henter f.type

theorem follows_expand (depth : Nat) (path : List DefId)
    (henv : ∀ s ∈ env, s.Follows r) (t : MoveType) : (expand r depth path env t).Follows r := by
  induction depth generalizing path env t with
  | zero =>
    rw [expand_eq]
    refine follows_ofType henv (fun d ts shapes _ _ _ _ => ?_) t
    trivial
  | succ depth ih =>
    rw [expand_eq]
    refine follows_ofType henv (fun d ts shapes hd htag hts hshapes => ?_) t
    subst hts
    rw [enterAt]
    split
    · trivial
    · split
      · assumption
      · rename_i fields hfields
        refine ⟨hd, htag, ⟨fields, hfields, ?_⟩, FieldShapes.follow_ofList ?_, ?_⟩
        · rw [FieldShapes.types_ofList, map_map, ← types_of_instantiate
            (type_enterAt depth (d.id :: path)) hfields]
          exact map_congr_left fun f _ => congrArg type (expand_eq _ _ _ _)
        · intro f hf
          obtain ⟨g, -, rfl⟩ := mem_map.1 hf
          exact ih (d.id :: path) hshapes g.type
        · rw [FieldShapes.names_ofList, map_map]
          rfl

theorem follows_shape (t : MoveType) : (r.shape t).Follows r :=
  follows_expand _ _ (by simp) t

/-! ## What generators read off a shape -/

theorem fields_of_struct {f : Form} (hfollows : (struct d args fields).Follows r)
    (hform : HasForm r (.struct d.id args) f) :
    ∃ fs, f = .struct fs ∧ HaveForms r fields.types fs := by
  obtain ⟨hd, htag, ⟨fs, hfs, htypes⟩, -⟩ := hfollows
  obtain ⟨gs, rfl, hgs⟩ := hform.of_fields hd htag hfs
  exact ⟨gs, rfl, htypes ▸ hgs⟩

theorem fieldsDynamic_of_struct {b : Bool} (h : (struct d args fields).isDynamic r = .ok b) :
    fieldsDynamic r d.name fields = .ok b := by
  rw [isDynamic] at h
  split at h
  · exact (Assembly.bind_eq_ok h).choose_spec.2
  · exact h

mutual

/-- Whether a value is dynamic, and its bytes if it is static, are told by its form. -/
theorem agrees_of_isDynamic : ∀ {s : Shape} {f : Form} {b : Bool}, s.Follows r →
    HasForm r s.type f → s.isDynamic r = .ok b → f.dynamic = b ∧ s.staticSize = UInt32.ofNat f.size
  | .bool, _, _, _, .bool, h | .int _, _, _, _, .int _, h | .address, _, _, _, .address, h => by
    rw [isDynamic] at h
    cases h
    exact ⟨rfl, rfl⟩
  | .vector e, _, _, _, .vector hf, h => by
    rw [isDynamic] at h
    obtain ⟨_, -, h⟩ := Assembly.bind_eq_ok h
    cases h
    exact ⟨rfl, rfl⟩
  | .enum d args, _, _, _, .enum _ _, h => by
    rw [isDynamic] at h
    split at h
    · cases h
      exact ⟨rfl, rfl⟩
    · cases h
  | .tagged d args, f, _, hs, hf, h => by
    rw [isDynamic] at h
    obtain ⟨htag, rfl⟩ | ⟨n, htag, rfl⟩ | ⟨htag, rfl⟩ | ⟨htag, rfl⟩ := hf.of_tag hs.1 hs.2
    all_goals
      rw [htag] at h
      cases h
      exact ⟨rfl, rfl⟩
  | .struct d args fields, f, _, hs, hf, h => by
    obtain ⟨fs, rfl, hfs⟩ := fields_of_struct hs hf
    exact agrees_of_fieldsDynamic hs.2.2.2.1 hfs (fieldsDynamic_of_struct h)
  | .missing _ _, _, _, _, _, h | .broken _ _ _, _, _, _, _, h | .endless _ _, _, _, _, _, h => by
    rw [isDynamic] at h
    cases h

theorem agrees_of_fieldsDynamic : ∀ {owner : String} {fields : FieldShapes} {fs : Forms}
    {b : Bool}, fields.Follow r → HaveForms r fields.types fs →
    fieldsDynamic r owner fields = .ok b →
    fs.dynamic = b ∧ fieldsSize fields = UInt32.ofNat fs.size
  | _, .nil, _, _, _, .nil, h => by
    rw [fieldsDynamic] at h
    cases h
    exact ⟨rfl, rfl⟩
  | _, .cons name s rest, _, _, hs, .cons hf hfs, h => by
    rw [fieldsDynamic] at h
    obtain ⟨a, ha, h⟩ := Assembly.bind_eq_ok h
    obtain ⟨b, hb, h⟩ := Assembly.bind_eq_ok h
    cases h
    obtain ⟨hdynamic, hsize⟩ := agrees_of_isDynamic hs.1 hf (within_eq_ok ha)
    obtain ⟨hrest, hsizes⟩ := agrees_of_fieldsDynamic hs.2 hfs hb
    rw [Forms.dynamic, hdynamic, hrest, fieldsSize, Forms.size, UInt32.ofNat_add, hsize, hsizes]
    exact ⟨rfl, rfl⟩

end

/-- Bytes among the heads. -/
theorem headSize_eq {s : Shape} {f : Form} {n : UInt32} (hs : s.Follows r)
    (hf : HasForm r s.type f) (h : s.headSize r = .ok n) : n = f.headWord := by
  obtain ⟨b, hb, h⟩ := Assembly.bind_eq_ok h
  obtain ⟨hdynamic, hsize⟩ := agrees_of_isDynamic hs hf hb
  unfold Form.headWord Form.head
  cases b with
  | true =>
    cases h
    rw [if_pos hdynamic]
    rfl
  | false =>
    cases h
    rw [if_neg (by simp [hdynamic]), hsize]

end Shape

end MoveCodec
