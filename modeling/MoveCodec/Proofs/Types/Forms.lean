import MoveCodec.Proofs.Codec.Computations

/-!
# Types and their wire forms

`HasForm r t f` says that under the definitions of `r` the values of type `t` have the wire form
`f`. It follows the definitions one by one, so a type whose definition leads back to itself has no
form. A shape stands for its type: whatever is read off a shape agrees with the form.
-/
namespace MoveCodec

variable {args : List MoveType} {d : StructDef} {f : Form} {id : DefId} {t : MoveType}

mutual

/-- The wire form of a type under the definitions of a registry. -/
inductive HasForm (r : Registry) : MoveType → Form → Prop
  | bool : HasForm r .bool .bool
  | int (w : IntWidth) : HasForm r (.int w) (.int w)
  | address : HasForm r .address .address
  | vector {t : MoveType} {f : Form} : HasForm r t f → HasForm r (.vector t) (.vector f)
  | enum {id : DefId} {args : List MoveType} {d : EnumDef} : r.enumOf id args = .ok d →
      d.isSimple = true → HasForm r (.enum id args) (.enum d.variants.length)
  | string {id : DefId} {args : List MoveType} {d : StructDef} : r.structOf id args = .ok d →
      d.tag = .string → HasForm r (.struct id args) .string
  | bytes {id : DefId} {args : List MoveType} {d : StructDef} {n : Fin 33} :
      r.structOf id args = .ok d → d.tag = .bytes n → HasForm r (.struct id args) (.bytes n)
  | uid {id : DefId} {args : List MoveType} {d : StructDef} : r.structOf id args = .ok d →
      d.tag = .uid → HasForm r (.struct id args) .uid
  | id {id : DefId} {args : List MoveType} {d : StructDef} : r.structOf id args = .ok d →
      d.tag = .id → HasForm r (.struct id args) .id
  | struct {id : DefId} {args : List MoveType} {d : StructDef} {fields : List Field} {fs : Forms} :
      r.structOf id args = .ok d → d.tag = .none → Registry.instantiate d args = .ok fields →
      HaveForms r (fields.map (·.type)) fs → HasForm r (.struct id args) (.struct fs)

/-- The forms of the fields of a struct. -/
inductive HaveForms (r : Registry) : List MoveType → Forms → Prop
  | nil : HaveForms r [] .nil
  | cons {t : MoveType} {f : Form} {ts : List MoveType} {fs : Forms} : HasForm r t f →
      HaveForms r ts fs → HaveForms r (t :: ts) (.cons false f fs)

end

section

variable {r : Registry}

theorem HasForm.of_tag
    (h : HasForm r (.struct id args) f) (hd : r.structOf id args = .ok d) (htag : d.tag ≠ .none) :
    (d.tag = .string ∧ f = .string) ∨ (∃ n : Fin 33, d.tag = .bytes n ∧ f = .bytes n) ∨
      (d.tag = .uid ∧ f = .uid) ∨ (d.tag = .id ∧ f = .id) := by
  cases h with
  | string hd' ht =>
    cases hd.symm.trans hd'
    exact .inl ⟨ht, rfl⟩
  | bytes hd' ht =>
    cases hd.symm.trans hd'
    exact .inr (.inl ⟨_, ht, rfl⟩)
  | uid hd' ht =>
    cases hd.symm.trans hd'
    exact .inr (.inr (.inl ⟨ht, rfl⟩))
  | id hd' ht =>
    cases hd.symm.trans hd'
    exact .inr (.inr (.inr ⟨ht, rfl⟩))
  | struct hd' ht =>
    cases hd.symm.trans hd'
    exact absurd ht htag

theorem HasForm.of_fields
    {fields : List Field} (h : HasForm r (.struct id args) f) (hd : r.structOf id args = .ok d)
    (htag : d.tag = .none) (hfields : Registry.instantiate d args = .ok fields) :
    ∃ fs, f = .struct fs ∧ HaveForms r (fields.map (·.type)) fs := by
  cases h with
  | struct hd' ht hf hfs =>
    cases hd.symm.trans hd'
    cases hfields.symm.trans hf
    exact ⟨_, rfl, hfs⟩
  | string hd' ht | bytes hd' ht | uid hd' ht | id hd' ht =>
    cases hd.symm.trans hd'
    rw [htag] at ht
    cases ht

mutual

theorem HasForm.unique : ∀ {f g : Form} {t : MoveType}, HasForm r t f → HasForm r t g → f = g
  | .bool, _, _, .bool, .bool => rfl
  | .int _, _, _, .int _, .int _ => rfl
  | .address, _, _, .address, .address => rfl
  | .vector f, _, _, .vector hf, .vector hg => congrArg _ (HasForm.unique hf hg)
  | .enum _, _, _, .enum hd _, .enum hd' _ => by
    cases hd.symm.trans hd'
    rfl
  | .struct fs, _, _, .struct hd ht hf hfs, hg => by
    obtain ⟨gs, rfl, hgs⟩ := hg.of_fields hd ht hf
    rw [HaveForms.unique hfs hgs]
  | .string, _, _, .string hd ht, hg => by
    have := hg.of_tag hd (by simp [ht])
    simp_all
  | .bytes n, _, _, .bytes hd ht, hg => by
    have := hg.of_tag hd (by simp [ht])
    simp_all [Fin.val_inj]
  | .uid, _, _, .uid hd ht, hg => by
    have := hg.of_tag hd (by simp [ht])
    simp_all
  | .id, _, _, .id hd ht, hg => by
    have := hg.of_tag hd (by simp [ht])
    simp_all

theorem HaveForms.unique : ∀ {fs gs : Forms} {ts : List MoveType}, HaveForms r ts fs →
    HaveForms r ts gs → fs = gs
  | .nil, _, _, .nil, .nil => rfl
  | .cons _ f fs, _, _, .cons hf hfs, .cons hg hgs => by
    rw [HasForm.unique hf hg, HaveForms.unique hfs hgs]

end

/-- Values stand in registers as their form says. -/
theorem HasForm.register_eq (h : HasForm r t f) :
    (t.register = .i64) = f.wide := by
  cases h with
  | int w => cases w <;> simp [MoveType.register, Form.wide]
  | _ => simp [MoveType.register, Form.wide]

theorem HasForm.stackSize_eq (h : HasForm r t f) :
    t.stackSize = .ok f.slotWord := by
  cases h with
  | int w => cases w <;> rfl
  | _ => rfl

end

end MoveCodec
