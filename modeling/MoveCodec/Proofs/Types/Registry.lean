import MoveCodec.Proofs.Wire.Class

/-!
# Registries and forms

A registry that was filled through its own operations gives every tag as its name says. Under such
a registry every type that has a size on the wire has a form.
-/
namespace MoveCodec

variable {args : List MoveType} {claim : Nat} {d d' : StructDef} {r' r : Registry}

namespace Registry

/-- Filled from empty by adding definitions. -/
inductive Made : Registry → Prop
  | empty : Made {}
  | addStruct {r r' : Registry} {d d' : StructDef} {claim : Nat} : Made r →
      r.addStruct d claim = .ok (d', r') → Made r'
  | addEnum {r r' : Registry} {d : EnumDef} : Made r → r.addEnum d = .ok r' → Made r'
  | freeze {r : Registry} : Made r → Made r.freeze

/-- What it takes to add a struct. -/
structure Admits (r : Registry) (d : StructDef) (claim : Nat) : Prop where
  thawed : r.frozen = false
  fresh : r.findStruct? d.id = none
  entitled : claim = 0 ∨ claim = (NativeTag.reserved d.id.home d.name).code
  bound : checkFields d.arity d.name d.fields = .ok ()
  topics : d.role = .event →
    0 ≤ d.indexed ∧ d.indexed ≤ maxIndexed ∧ d.indexed ≤ d.fields.length

/-- What it takes to add an enum. -/
structure AdmitsEnum (r : Registry) (d : EnumDef) : Prop where
  thawed : r.frozen = false
  fresh : r.findEnum? d.id = none
  variants_ne : d.variants ≠ []
  bound : ∀ v ∈ d.variants, checkFields d.arity (d.name ++ "::" ++ v.name) v.fields = .ok ()

theorem addStruct_eq_ok : r.addStruct d claim = .ok (d', r') ↔ r.Admits d claim ∧
      d' = { d with tag := NativeTag.reserved d.id.home d.name } ∧
      r' = { r with structs := r.structs ++ [d'] } := by
  simp only [addStruct, bind, Except.bind, throw, throwThe, MonadExceptOf.throw, pure, Except.pure]
  constructor
  · intro h
    split_ifs at h with hfrozen hfresh hclaim htopics
    all_goals cases hfields : checkFields d.arity d.name d.fields <;> rw [hfields] at h <;> cases h
    refine ⟨⟨?_, ?_, ?_, hfields, ?_⟩, rfl, rfl⟩
    · simpa using hfrozen
    · simpa using hfresh
    · grind
    · intro hevent
      simp only [hevent, true_and, not_or, not_lt] at htopics
      exact htopics
  · rintro ⟨h, rfl, rfl⟩
    have hclaim := h.entitled
    have htopics : ¬ (d.role = .event ∧
        (d.indexed < 0 ∨ maxIndexed < d.indexed ∨ d.fields.length < d.indexed)) := by
      rintro ⟨hevent, hrange⟩
      have := h.topics hevent
      omega
    rw [if_neg (by simp [h.thawed]), if_neg (by simp [h.fresh]), if_neg (by grind), h.bound]
    exact if_neg htopics

theorem forM_eq_ok {α : Type} {f : α → Except Error Unit} {xs : List α} :
    xs.forM f = .ok () ↔ ∀ x ∈ xs, f x = .ok () := by
  induction xs with
  | nil => exact iff_of_true rfl (by simp)
  | cons x xs ih =>
    rw [List.forall_mem_cons, ← ih, List.forM]
    constructor
    · intro h
      obtain ⟨⟨⟩, hx, hxs⟩ := Assembly.bind_eq_ok h
      exact ⟨hx, hxs⟩
    · rintro ⟨hx, hxs⟩
      rw [hx]
      exact hxs

theorem addEnum_eq_ok {d : EnumDef} :
    r.addEnum d = .ok r' ↔ r.AdmitsEnum d ∧ r' = { r with enums := r.enums ++ [d] } := by
  simp only [addEnum, bind, Except.bind, throw, throwThe, MonadExceptOf.throw, pure, Except.pure]
  constructor
  · intro h
    split_ifs at h with hfrozen hfresh hvariants
    cases hfields : d.variants.forM fun v => checkFields d.arity (d.name ++ "::" ++ v.name) v.fields <;>
      rw [hfields] at h
    · cases h
    cases h
    refine ⟨⟨?_, ?_, ?_, forM_eq_ok.1 hfields⟩, rfl⟩
    · simpa using hfrozen
    · simpa using hfresh
    · simpa using hvariants
  · rintro ⟨h, rfl⟩
    rw [if_neg (by simp [h.thawed]), if_neg (by simp [h.fresh]), if_neg (by simp [h.variants_ne]),
      forM_eq_ok.2 h.bound]

theorem structs_of_addStruct (h : r.addStruct d claim = .ok (d', r')) :
    r'.structs = r.structs ++ [d'] ∧ d'.tag = NativeTag.reserved d'.id.home d'.name := by
  obtain ⟨-, rfl, rfl⟩ := addStruct_eq_ok.1 h
  exact ⟨rfl, rfl⟩

theorem structs_of_addEnum {d : EnumDef} (h : r.addEnum d = .ok r') : r'.structs = r.structs := by
  obtain ⟨-, rfl⟩ := addEnum_eq_ok.1 h
  rfl

theorem Made.tag_eq (h : r.Made) (hd : d ∈ r.structs) :
    d.tag = NativeTag.reserved d.id.home d.name := by
  induction h with
  | empty => cases hd
  | addStruct _ hadd ih =>
    obtain ⟨hstructs, htag⟩ := structs_of_addStruct hadd
    rw [hstructs, List.mem_append, List.mem_singleton] at hd
    rcases hd with hd | rfl
    · exact ih hd
    · exact htag
  | addEnum _ hadd ih => exact ih (structs_of_addEnum hadd ▸ hd)
  | freeze _ ih => exact ih hd

end Registry

/-- Fixed byte strings have from 1 to 32 bytes. -/
theorem NativeTag.bytes_range {home : ModuleId} {name : String} {n : Nat}
    (h : reserved home name = .bytes n) : 1 ≤ n ∧ n ≤ 32 := by
  unfold reserved at h
  split_ifs at h
  cases hname : lengthOfName? name with
  | none => simp [hname] at h
  | some m =>
    simp only [hname, Option.map_some, Option.getD_some, NativeTag.bytes.injEq] at h
    subst h
    unfold lengthOfName? at hname
    split at hname
    · dsimp only at hname
      split_ifs at hname
      all_goals
        cases hname
        assumption
    · cases hname

namespace Shape

variable {r : Registry}

theorem mem_structs_of_structOf {id : DefId}
    (h : r.structOf id args = .ok d) : d ∈ r.structs :=
  List.mem_of_find?_eq_some (Registry.structOf_eq_ok.1 h).1

theorem exists_form_tagged (hr : r.Made)
    (hd : r.structOf d.id args = .ok d) (hsome : d.tag ≠ .none) (htag : d.tag ≠ .txContext) :
    ∃ f, HasForm r (.struct d.id args) f := by
  have hreserved := hr.tag_eq (mem_structs_of_structOf hd)
  cases htag' : d.tag with
  | none => exact absurd htag' hsome
  | uid => exact ⟨_, .uid hd htag'⟩
  | id => exact ⟨_, .id hd htag'⟩
  | string => exact ⟨_, .string hd htag'⟩
  | bytes n =>
    have hn := NativeTag.bytes_range (hreserved.symm.trans htag')
    exact ⟨_, .bytes (n := ⟨n, by omega⟩) hd htag'⟩
  | txContext => exact absurd htag' htag

theorem Classed.exists_form (hr : r.Made) {s : Shape} (h : s.Classed r) :
    s.Follows r → ∃ f, HasForm r s.type f := by
  refine h.inductOn (P := fun s => s.Follows r → ∃ f, HasForm r s.type f)
    (Q := fun fields => fields.Follow r → ∃ fs, HaveForms r fields.types fs)
    ?bool ?int ?address ?vector ?enum ?tagged ?struct ?nil ?cons
  case bool => exact fun _ => ⟨_, .bool⟩
  case int => exact fun w _ => ⟨_, .int w⟩
  case address => exact fun _ => ⟨_, .address⟩
  case vector =>
    intro e _ ih hs
    obtain ⟨f, hf⟩ := ih hs
    exact ⟨_, .vector hf⟩
  case enum => exact fun d args hsimple hs => ⟨_, .enum hs hsimple⟩
  case tagged => exact fun d args htag hs => exists_form_tagged hr hs.1 hs.2 htag
  case struct =>
    intro d args fields _ _ ih hs
    obtain ⟨hd, htag, ⟨fs, hfs, htypes⟩, hfollow, -⟩ := hs
    obtain ⟨forms, hforms⟩ := ih hfollow
    exact ⟨_, .struct hd htag hfs (htypes ▸ hforms)⟩
  case nil => exact fun _ => ⟨_, .nil⟩
  case cons =>
    intro name s rest _ ih _ ihrest hs
    obtain ⟨f, hf⟩ := ih hs.1
    obtain ⟨fs, hfs⟩ := ihrest hs.2
    exact ⟨_, .cons hf hfs⟩

theorem type_shape (t : MoveType) : (r.shape t).type = t := by
  rw [Registry.shape, expand_eq]
  exact (type_ofType (type_enterAt _ _) t).trans (MoveType.mapParams_param t)

end Shape

theorem Registry.Made.exists_form_of_headSize (hr : r.Made) {t : MoveType} {n : UInt32}
    (h : r.headSize t = .ok n) : ∃ f, HasForm r t f := by
  obtain ⟨b, hb, -⟩ := Assembly.bind_eq_ok h
  have hform := (Shape.classed_of_isDynamic hb).exists_form hr (Shape.follows_shape t)
  rwa [Shape.type_shape] at hform

end MoveCodec
