import MoveCodec.Proofs.Types.Concrete
import Mathlib.Logic.Equiv.Defs
import Mathlib.Data.List.Forall2

/-!
# Renumbered definitions

The number of a definition tells it from others and says nothing else. When the definitions of a
registry get other numbers, types and shapes change by the same renumbering; texts that show names
stay as they are. Failures may name numbers, so two computations are compared by whether they
succeed and by their results.
-/
namespace MoveCodec

open List

variable {args : List MoveType} {t : MoveType} {id : DefId}

/-! ## Computations in step -/

/-- Both computations succeed, with related results, or both fail. -/
inductive InStep {α β : Type} (R : α → β → Prop) : Except Error α → Except Error β → Prop
  | ok {a : α} {b : β} (h : R a b) : InStep R (.ok a) (.ok b)
  | error (e e' : Error) : InStep R (.error e) (.error e')

namespace InStep

variable {α β γ δ : Type} {R : α → β → Prop} {S : γ → δ → Prop} {x : Except Error α}
  {y : Except Error β} {f : α → Except Error γ} {xs : List α}

theorem imp {R' : α → β → Prop} (h : InStep R x y) (himp : ∀ a b, R a b → R' a b) :
    InStep R' x y := by
  cases h with
  | ok h => exact .ok (himp _ _ h)
  | error e e' => exact .error e e'

theorem refl (x : Except Error α) : InStep Eq x x := by
  cases x with
  | ok a => exact .ok rfl
  | error e => exact .error e e

section

variable (h : InStep R x y)

include h

theorem trans {z : Except Error γ} {S : β → γ → Prop} {T : α → γ → Prop} (h' : InStep S y z) (hT : ∀ a b c, R a b → S b c → T a c) : InStep T x z := by
  cases h with
  | ok h =>
    cases h' with
    | ok h' => exact .ok (hT _ _ _ h h')
  | error e e' =>
    cases h' with
    | error _ e'' => exact .error e e''

theorem exists_ok {a : α} (hx : x = .ok a) : ∃ b, y = .ok b ∧ R a b := by
  subst hx
  cases h with
  | ok h => exact ⟨_, rfl, h⟩

theorem bind {k : α → Except Error γ} {l : β → Except Error δ} (hk : ∀ a b, R a b → InStep S (k a) (l b)) : InStep S (x >>= k) (y >>= l) := by
  cases h with
  | ok h => exact hk _ _ h
  | error e e' => exact .error e e'

theorem and_ok : InStep (fun a b => x = .ok a ∧ R a b) x y := by
  cases h with
  | ok h => exact .ok ⟨rfl, h⟩
  | error e e' => exact .error e e'

/-- The results, when both computations are known to succeed. -/
theorem results {a : α} {b : β} (hx : x = .ok a) (hy : y = .ok b) : R a b := by
  subst hx hy
  cases h with
  | ok h => exact h

theorem within (step step' : String) :
    InStep R (MoveCodec.within step x) (MoveCodec.within step' y) := by
  cases h with
  | ok h => exact .ok h
  | error e e' => exact .error _ _

end

theorem mapM {g : β → Except Error δ} {ys : List β}
    (h : List.Forall₂ (fun a b => InStep S (f a) (g b)) xs ys) :
    InStep (List.Forall₂ S) (xs.mapM f) (ys.mapM g) := by
  induction h with
  | nil => exact .ok .nil
  | cons hx _ ih =>
    rw [mapM_cons, mapM_cons]
    refine .bind hx fun c d hcd => .bind ih fun cs ds hcds => ?_
    exact .ok (.cons hcd hcds)

/-- Mapping two computations over one list. -/
theorem mapM_self {f' : α → Except Error δ} {P : γ → Prop} {k : γ → δ}
    (h : ∀ a ∈ xs, InStep (fun c d => P c ∧ d = k c) (f a) (f' a)) :
    InStep (fun cs ds => (∀ c ∈ cs, P c) ∧ ds = cs.map k) (xs.mapM f) (xs.mapM f') :=
  (mapM (forall₂_same.2 h)).imp fun _ _ => Assembly.forall₂_and_eq.1

/-- Mapping a computation over a list and over its image. -/
theorem mapM_map {f' : β → Except Error δ} {g : α → β} {k : γ → δ}
    (h : ∀ a ∈ xs, InStep (fun c d => d = k c) (f a) (f' (g a))) :
    InStep (fun cs ds => ds = cs.map k) (xs.mapM f) ((xs.map g).mapM f') := by
  have hall : List.Forall₂ (fun a b => InStep (fun c d => True ∧ d = k c) (f a) (f' b)) xs
      (xs.map g) := by
    rw [forall₂_map_right_iff, forall₂_same]
    exact fun a ha => (h a ha).imp fun _ _ hd => ⟨trivial, hd⟩
  exact (mapM hall).imp fun cs ds hcds => (Assembly.forall₂_and_eq.1 hcds).2

/-- Mapping computations with the same results over a list and over its image. -/
theorem mapM_same {f' : β → Except Error γ} {g : α → β} (h : ∀ a ∈ xs, InStep Eq (f a) (f' (g a))) :
    InStep Eq (xs.mapM f) ((xs.map g).mapM f') := by
  refine (mapM_map (k := id) fun a ha => (h a ha).imp fun _ _ => Eq.symm).imp fun cs ds hds => ?_
  rw [hds, map_id]

end InStep

/-! ## Renumbered types and definitions -/

structure Renaming where
  structs : Equiv.Perm DefId
  enums : Equiv.Perm DefId

namespace MoveType

mutual

/-- A type with other numbers for its definitions. -/
def rename (f : Renaming) : MoveType → MoveType
  | .vector e => .vector (rename f e)
  | .struct id args => .struct (f.structs id) (renameAll f args)
  | .enum id args => .enum (f.enums id) (renameAll f args)
  | .ref m t => .ref m (rename f t)
  | .param i => .param i
  | .bool => .bool
  | .int w => .int w
  | .address => .address
  | .signer => .signer

def renameAll (f : Renaming) : List MoveType → List MoveType
  | [] => []
  | t :: ts => rename f t :: renameAll f ts

end

variable {f : Renaming}

@[simp] theorem renameAll_eq (ts : List MoveType) : renameAll f ts = ts.map (rename f) := by
  induction ts with
  | nil => rfl
  | cons t ts ih => rw [renameAll, ih, map_cons]

@[simp] theorem rename_struct (id : DefId) (args : List MoveType) :
    (struct id args).rename f = .struct (f.structs id) (args.map (rename f)) := by
  rw [rename, renameAll_eq]

@[simp] theorem rename_enum (id : DefId) (args : List MoveType) :
    (enum id args).rename f = .enum (f.enums id) (args.map (rename f)) := by
  rw [rename, renameAll_eq]

theorem parts_rename (t : MoveType) : (t.rename f).parts = t.parts.map (rename f) := by
  have hall {args : List MoveType} (ih : ∀ a ∈ args, (a.rename f).parts = a.parts.map (rename f)) :
      (args.map (rename f)).flatMap parts = (args.flatMap parts).map (rename f) := by
    rw [flatMap_map, map_flatMap]
    exact flatMap_congr ih
  induction t using rec_args with
  | struct id args ih => simp [parts, partsAll_eq, hall ih]
  | enum id args ih => simp [parts, partsAll_eq, hall ih]
  | vector e ih => simp [rename, parts, ih]
  | ref m t ih => simp [rename, parts, ih]
  | _ => rfl

theorem isParam_rename (t : MoveType) : (t.rename f).isParam = t.isParam := by
  cases t <;> rfl

theorem isConcrete_rename (t : MoveType) : (t.rename f).isConcrete = t.isConcrete := by
  rw [isConcrete, isConcrete, parts_rename, all_map]
  exact all_congr rfl fun p => congrArg (!·) (isParam_rename p)

theorem unboundParam?_rename (arity : Int) (t : MoveType) :
    (t.rename f).unboundParam? arity = t.unboundParam? arity := by
  rw [unboundParam?, unboundParam?, parts_rename, findSome?_map]
  congr 1
  funext p
  cases p <;> rfl

theorem mapParams_rename (g : UInt16 → MoveType) (t : MoveType) :
    (t.rename f).mapParams (fun i => (g i).rename f) = (t.mapParams g).rename f := by
  induction t using rec_args with
  | struct id ts ih | enum id ts ih =>
    simp only [rename, renameAll_eq, mapParams, mapParamsAll_eq, map_map]
    exact congrArg _ (map_congr_left ih)
  | vector e ih | ref _ e ih => simp only [rename, mapParams, ih]
  | _ => rfl

theorem substitute_rename (args : List MoveType) (t : MoveType) :
    (t.rename f).substitute (args.map (rename f)) = rename f <$> t.substitute args := by
  have hargument : argument (args.map (rename f)) = fun i => (argument args i).rename f := by
    funext i
    rw [argument, argument, getElem?_map]
    cases args[i.toNat]? <;> rfl
  rw [substitute_eq, substitute_eq, length_map, unboundParam?_rename, hargument,
    mapParams_rename]
  cases t.unboundParam? args.length <;> rfl

theorem deref_rename (t : MoveType) :
    InStep (fun u u' => u' = u.rename f) t.deref (t.rename f).deref := by
  cases t with
  | ref m t =>
    cases t with
    | ref n t => exact .error _ _
    | _ => exact .ok rfl
  | _ => exact .ok rfl

theorem rename_eq_signer : t.rename f = .signer ↔ t = .signer := by
  cases t <;> simp [rename]

end MoveType

section

variable (f : Renaming)

def Field.rename (q : Field) : Field := { q with type := q.type.rename f }

def StructDef.rename (d : StructDef) : StructDef :=
  { d with id := f.structs d.id, fields := d.fields.map (·.rename f) }

def Variant.rename (v : Variant) : Variant := { v with fields := v.fields.map (·.rename f) }

def EnumDef.rename (d : EnumDef) : EnumDef :=
  { d with id := f.enums d.id, variants := d.variants.map (·.rename f) }

end

theorem EnumDef.isSimple_rename (f : Renaming) (d : EnumDef) :
    (d.rename f).isSimple = d.isSimple := by
  simp [isSimple, rename, Variant.rename, all_map, Function.comp_def]

namespace Registry

variable {f : Renaming} {r r' : Registry}

theorem instantiate_rename (d : StructDef) (args : List MoveType) :
    instantiate (d.rename f) (args.map (·.rename f)) =
      List.map (·.rename f) <$> instantiate d args := by
  rw [instantiate, instantiate, isEmpty_map]
  split
  · rfl
  · simp only [StructDef.rename]
    generalize d.fields = fields
    induction fields with
    | nil => rfl
    | cons q fields ih =>
      rw [map_cons, mapM_cons, mapM_cons, ih]
      simp only [Field.rename, MoveType.substitute_rename]
      cases q.type.substitute args with
      | error e => rfl
      | ok u =>
        generalize (fields.mapM fun q => do
          let type ← within (d.name ++ "." ++ q.name) (q.type.substitute args)
          return { q with type } : Except Error (List Field)) = rest
        cases rest <;> rfl

theorem checkFields_rename (arity : Int) (owner : String) (fields : List Field) :
    checkFields arity owner (fields.map (·.rename f)) = checkFields arity owner fields := by
  unfold checkFields
  induction fields with
  | nil => rfl
  | cons q fields ih =>
    rw [map_cons, List.forM, List.forM, ih]
    simp only [Field.rename, MoveType.unboundParam?_rename]

/-- The definitions of one registry are those of the other under other numbers. -/
structure Renamed (f : Renaming) (r r' : Registry) : Prop where
  structs : ∀ id, r'.findStruct? (f.structs id) = (r.findStruct? id).map (·.rename f)
  enums : ∀ id, r'.findEnum? (f.enums id) = (r.findEnum? id).map (·.rename f)
  length_eq : r'.structs.length = r.structs.length

namespace Renamed

variable (h : r.Renamed f r')

include h

theorem tagOf_eq (t : MoveType) : r'.tagOf (t.rename f) = r.tagOf t := by
  cases t with
  | struct id args =>
    rw [MoveType.rename_struct, tagOf, tagOf, h.structs, Option.map_map]
    rfl
  | _ => rfl

theorem structOf_eq (args : List MoveType) (hid : (r.findStruct? id).isSome = true) :
    r'.structOf (f.structs id) (args.map (·.rename f)) =
      StructDef.rename f <$> r.structOf id args := by
  obtain ⟨d, hd⟩ := Option.isSome_iff_exists.1 hid
  simp only [structOf, h.structs, hd, Option.map_some, checkArity, length_map]
  change (if (args.length : Int) = d.arity then _ else _) >>= _ = _
  split <;> rfl

theorem structOf (id : DefId) (args : List MoveType) :
    InStep (fun d d' => d' = d.rename f) (r.structOf id args)
      (r'.structOf (f.structs id) (args.map (·.rename f))) := by
  cases hid : r.findStruct? id with
  | none =>
    simp only [Registry.structOf, h.structs, hid, Option.map_none]
    exact .error _ _
  | some d =>
    rw [h.structOf_eq args (by rw [hid]; rfl)]
    cases r.structOf id args with
    | error e => exact .error _ _
    | ok d => exact .ok rfl

theorem enumOf_eq (args : List MoveType) (hid : (r.findEnum? id).isSome = true) :
    r'.enumOf (f.enums id) (args.map (·.rename f)) = EnumDef.rename f <$> r.enumOf id args := by
  obtain ⟨d, hd⟩ := Option.isSome_iff_exists.1 hid
  simp only [enumOf, h.enums, hd, Option.map_some, checkArity, length_map]
  change (if (args.length : Int) = d.arity then _ else _) >>= _ = _
  split <;> rfl

theorem fields (id : DefId) (args : List MoveType) :
    InStep (fun qs qs' => qs' = qs.map (·.rename f)) (r.fields id args)
      (r'.fields (f.structs id) (args.map (·.rename f))) := by
  refine .bind (h.structOf id args) fun d d' hd => ?_
  subst hd
  rw [instantiate_rename]
  cases instantiate d args with
  | error e => exact .error _ _
  | ok qs => exact .ok rfl

end Renamed

end Registry

/-! ## Renumbered shapes -/

mutual

def Shape.rename (f : Renaming) : Shape → Shape
  | .bool => .bool
  | .int w => .int w
  | .address => .address
  | .signer => .signer
  | .param i => .param i
  | .vector e => .vector (e.rename f)
  | .ref m t => .ref m (t.rename f)
  | .enum d args => .enum (d.rename f) (args.map (·.rename f))
  | .tagged d args => .tagged (d.rename f) (args.map (·.rename f))
  | .struct d args fields => .struct (d.rename f) (args.map (·.rename f)) (fields.rename f)
  | .missing t e => .missing (t.rename f) e
  | .broken d args e => .broken (d.rename f) (args.map (·.rename f)) e
  | .endless d args => .endless (d.rename f) (args.map (·.rename f))

def FieldShapes.rename (f : Renaming) : FieldShapes → FieldShapes
  | .nil => .nil
  | .cons name s rest => .cons name (s.rename f) (rest.rename f)

end

theorem FieldShapes.rename_ofList (f : Renaming) (fs : List (String × Shape)) :
    (ofList fs).rename f = ofList (fs.map fun q => (q.1, q.2.rename f)) := by
  induction fs with
  | nil => rfl
  | cons q fs ih => rw [ofList, rename, ih, map_cons, ofList]

namespace Shape

variable {f : Renaming}

theorem type_rename : ∀ s : Shape, (s.rename f).type = s.type.rename f
  | .vector e => by rw [rename, type, type, type_rename e, MoveType.rename]
  | .ref m t => by rw [rename, type, type, type_rename t, MoveType.rename]
  | .enum d args => (MoveType.rename_enum d.id args).symm
  | .tagged d args | .struct d args _ | .broken d args _ | .endless d args =>
    (MoveType.rename_struct d.id args).symm
  | .missing _ _ | .bool | .int _ | .address | .signer | .param _ => rfl

end Shape

namespace Registry

/-- Every definition that a type refers to is there. -/
def Knows (r : Registry) (t : MoveType) : Prop :=
  ∀ q ∈ t.parts, match q with
    | .struct id _ => (r.findStruct? id).isSome = true
    | .enum id _ => (r.findEnum? id).isSome = true
    | _ => True

/-- Fields refer to definitions that are there. -/
def Closed (r : Registry) : Prop := ∀ d ∈ r.structs, ∀ q ∈ d.fields, r.Knows q.type

variable {r : Registry}

theorem knows_struct :
    r.Knows (.struct id args) ↔ (r.findStruct? id).isSome = true ∧ ∀ a ∈ args, r.Knows a := by
  simp only [Knows, MoveType.parts, forall_mem_cons, MoveType.partsAll_eq, forall_mem_flatMap]

theorem knows_enum :
    r.Knows (.enum id args) ↔ (r.findEnum? id).isSome = true ∧ ∀ a ∈ args, r.Knows a := by
  simp only [Knows, MoveType.parts, forall_mem_cons, MoveType.partsAll_eq, forall_mem_flatMap]

theorem knows_vector {e : MoveType} : r.Knows (.vector e) ↔ r.Knows e := by
  simp only [Knows, MoveType.parts, forall_mem_cons, true_and]

theorem knows_ref {m : Bool} : r.Knows (.ref m t) ↔ r.Knows t := by
  simp only [Knows, MoveType.parts, forall_mem_cons, true_and]

theorem knows_mapParams {g : UInt16 → MoveType} (hg : ∀ i, r.Knows (g i)) (ht : r.Knows t) :
    r.Knows (t.mapParams g) := by
  intro q hq
  rw [MoveType.parts_mapParams, mem_flatMap] at hq
  obtain ⟨p, hp, hq⟩ := hq
  have hknown := ht p hp
  cases p with
  | param i => exact hg i q hq
  | _ =>
    obtain rfl := mem_singleton.1 hq
    exact hknown

theorem knows_argument (hargs : ∀ a ∈ args, r.Knows a) (i : UInt16) :
    r.Knows (MoveType.argument args i) := by
  rw [MoveType.argument]
  cases hi : args[i.toNat]? with
  | none =>
    intro q hq
    cases mem_singleton.1 hq
    trivial
  | some a => exact hargs a (mem_of_getElem? hi)

theorem Closed.knows_fields (hr : r.Closed)
    {fields : List Field} (hargs : ∀ a ∈ args, r.Knows a) (h : r.fields id args = .ok fields) :
    ∀ q ∈ fields, r.Knows q.type := by
  obtain ⟨d, hd, h⟩ := Assembly.bind_eq_ok h
  obtain ⟨-, rfl⟩ := instantiate_eq_ok.1 h
  exact forall_mem_map.2 fun q hq =>
    knows_mapParams (knows_argument hargs) (hr d (Shape.mem_structs_of_structOf hd) q hq)

theorem Closed.knows_types (hr : r.Closed) {d : StructDef} {fields : FieldShapes}
    (h : (Shape.struct d args fields).Follows r) (ht : r.Knows (.struct d.id args)) :
    ∀ t ∈ fields.types, r.Knows t := by
  obtain ⟨hd, -, ⟨fs, hfs, htypes⟩, -⟩ := h
  rw [htypes]
  have hfields : r.fields d.id args = .ok fs := by
    rw [Registry.fields, hd]
    exact hfs
  exact forall_mem_map.2 (hr.knows_fields (knows_struct.1 ht).2 hfields)

theorem typeNames_eq (r : Registry) (ts : List MoveType) : r.typeNames ts = ts.map r.typeName := by
  induction ts with
  | nil => rfl
  | cons t ts ih => rw [typeNames, ih, map_cons]

/-- Names are not numbers. -/
theorem Renamed.typeName_eq {f : Renaming} {r' : Registry} (h : r.Renamed f r')
    (ht : r.Knows t) : r'.typeName (t.rename f) = r.typeName t := by
  induction t using MoveType.rec_args with
  | struct id args ih =>
    obtain ⟨hid, hargs⟩ := knows_struct.1 ht
    obtain ⟨d, hd⟩ := Option.isSome_iff_exists.1 hid
    rw [MoveType.rename_struct, typeName, typeName, h.structs, hd, typeNames_eq, typeNames_eq,
      map_map]
    exact congrArg (d.name ++ MoveType.bracketed ·)
      (map_congr_left fun a ha => ih a ha (hargs a ha))
  | enum id args ih =>
    obtain ⟨hid, hargs⟩ := knows_enum.1 ht
    obtain ⟨d, hd⟩ := Option.isSome_iff_exists.1 hid
    rw [MoveType.rename_enum, typeName, typeName, h.enums, hd, typeNames_eq, typeNames_eq,
      map_map]
    exact congrArg (d.name ++ MoveType.bracketed ·)
      (map_congr_left fun a ha => ih a ha (hargs a ha))
  | vector e ih => rw [MoveType.rename, typeName, typeName, ih (knows_vector.1 ht)]
  | ref m t ih => rw [MoveType.rename, typeName, typeName, ih (knows_ref.1 ht)]
  | _ => rfl

end Registry

namespace Shape

variable {f : Renaming} {r r' : Registry}

/-- Shapes follow a renumbering if the ways to enter a struct do. -/
theorem ofType_rename (h : r.Renamed f r')
    {enter enter' : StructDef → List MoveType → List Shape → Shape}
    (henter : ∀ d ∈ r.structs, ∀ ts shapes,
      enter' (d.rename f) (ts.map (·.rename f)) (shapes.map (rename f)) =
        (enter d ts shapes).rename f)
    (env : List Shape) (ht : r.Knows t) :
    ofType r' enter' (env.map (rename f)) (t.rename f) = (ofType r enter env t).rename f := by
  have htypes {args : List MoveType}
      (ih : ∀ a ∈ args, r.Knows a → ofType r' enter' (env.map (rename f)) (a.rename f) =
        (ofType r enter env a).rename f) (hargs : ∀ a ∈ args, r.Knows a) :
      ofTypes r' enter' (env.map (rename f)) (args.map (·.rename f)) =
        (ofTypes r enter env args).map (rename f) := by
    rw [ofTypes_eq, ofTypes_eq, map_map, map_map]
    exact map_congr_left fun a ha => ih a ha (hargs a ha)
  have hmap (shapes : List Shape) : (shapes.map (rename f)).map type =
      (shapes.map type).map (·.rename f) := by
    rw [map_map, map_map]
    exact map_congr_left fun s _ => type_rename s
  induction t using MoveType.rec_args with
  | struct id args ih =>
    obtain ⟨hid, hargs⟩ := Registry.knows_struct.1 ht
    rw [MoveType.rename_struct, ofType, ofType, htypes ih hargs, hmap, h.structOf_eq _ hid]
    cases hd : r.structOf id ((ofTypes r enter env args).map type) with
    | error e => exact congrArg (missing · e) (MoveType.rename_struct id _).symm
    | ok d =>
      change (if d.tag = .none then _ else _) = rename f (if d.tag = .none then _ else _)
      split
      · exact henter d (mem_structs_of_structOf hd) _ _
      · rfl
  | enum id args ih =>
    obtain ⟨hid, hargs⟩ := Registry.knows_enum.1 ht
    rw [MoveType.rename_enum, ofType, ofType, htypes ih hargs, hmap, h.enumOf_eq _ hid]
    cases hd : r.enumOf id ((ofTypes r enter env args).map type) with
    | error e => exact congrArg (missing · e) (MoveType.rename_enum id _).symm
    | ok d => rfl
  | vector e ih =>
    rw [MoveType.rename, ofType, ofType, ih (Registry.knows_vector.1 ht), rename]
  | ref m t ih => rw [MoveType.rename, ofType, ofType, ih (Registry.knows_ref.1 ht), rename]
  | param i =>
    rw [MoveType.rename, ofType, ofType, getElem?_map]
    cases env[i.toNat]? <;> rfl
  | _ => rfl

theorem expand_rename (h : r.Renamed f r') (hr : r.Closed) (depth : Nat) (path : List DefId)
    (env : List Shape) (ht : r.Knows t) :
    expand r' depth (path.map f.structs) (env.map (rename f)) (t.rename f) =
      (expand r depth path env t).rename f := by
  induction depth generalizing path env t with
  | zero =>
    rw [expand_eq, expand_eq]
    exact ofType_rename h (fun d _ ts shapes => rfl) env ht
  | succ depth ih =>
    rw [expand_eq, expand_eq]
    refine ofType_rename h (fun d hd ts shapes => ?_) env ht
    have hpath : (d.rename f).id ∈ path.map f.structs ↔ d.id ∈ path :=
      mem_map_of_injective f.structs.injective
    rw [enterAt, enterAt]
    by_cases hmem : d.id ∈ path
    · rw [if_pos (hpath.2 hmem), if_pos hmem, rename]
    · rw [if_neg (hpath.not.2 hmem), if_neg hmem, Registry.instantiate_rename]
      cases Registry.instantiate d ts with
      | error e => rfl
      | ok fields =>
        change struct _ _ (.ofList _) = struct _ _ (FieldShapes.rename f (.ofList _))
        rw [FieldShapes.rename_ofList, map_map]
        congr 2
        rw [StructDef.rename, map_map]
        refine map_congr_left fun q hq => ?_
        exact congrArg (Prod.mk q.name) (ih (d.id :: path) shapes (hr d hd q hq))

/-- The shape of a renumbered type is the renumbered shape. -/
theorem shape_rename (h : r.Renamed f r') (hr : r.Closed) (ht : r.Knows t) :
    r'.shape (t.rename f) = (r.shape t).rename f := by
  rw [Registry.shape, Registry.shape, h.length_eq]
  exact expand_rename h hr _ [] [] ht

end Shape

end MoveCodec
