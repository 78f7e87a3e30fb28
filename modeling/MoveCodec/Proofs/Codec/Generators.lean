import MoveCodec.Proofs.Assembly.Generation
import MoveCodec.Proofs.Codec.Intakes
import MoveCodec.Proofs.Types.Registry

/-!
# What the generators of the codec make

`Serves` has for each request of the codec what its function does: packers and unpackers do what
`packing` and `unpacking` say for the form of their type. Each generator makes such a function,
given that the cache holds such functions.
-/
namespace MoveCodec

variable {c : Context} {offsets : List UInt32} {size : UInt32} {ts : List MoveType} {fs : Forms}

/-- Offsets of the parts of a record from `start` on. -/
def Forms.places : Forms → (start : UInt32) → List UInt32
  | .nil, _ => []
  | .cons boxed f fs, start => start :: fs.places (start + UInt32.ofNat (f.place boxed))

mutual

/-- Values of the form can be read from call data: there is no unique identifier inside. -/
def Form.decodable : Form → Bool
  | .uid => false
  | .vector e => e.decodable
  | .struct fields => fields.decodable
  | _ => true

def Forms.decodable : Forms → Bool
  | .nil => true
  | .cons _ f fs => f.decodable && fs.decodable

end

namespace Codec

open Wasm Wasm.Emit Assembly Machine Machine.Compute Prelude

/-- The forms of the values of a record; a reference stands for what it points to. -/
inductive TupleForms (r : Registry) : List MoveType → Forms → Prop
  | nil : TupleForms r [] .nil
  | value {t : MoveType} {f : Form} {ts : List MoveType} {fs : Forms} : HasForm r t f →
      TupleForms r ts fs → TupleForms r (t :: ts) (.cons false f fs)
  | ref {m : Bool} {t : MoveType} {f : Form} {ts : List MoveType} {fs : Forms} : HasForm r t f →
      TupleForms r ts fs → TupleForms r (.ref m t :: ts) (.cons true f fs)

/-- The type without a reference. -/
def target : MoveType → MoveType
  | .ref _ t => t
  | t => t

/-- Parameters of the type are read from the call data. -/
def ByValue (r : Registry) (t : MoveType) : Prop :=
  target t ≠ .signer ∧ r.tagOf (target t) ≠ .txContext ∧ (r.shape (target t)).isObject = false

def FieldForms (r : Registry) : MoveType → Forms → Prop
  | .struct id args, fs =>
    ∃ fields, r.fields id args = .ok fields ∧ HaveForms r (fields.map (·.type)) fs
  | _, _ => False

/-- Where a parameter of a type comes from; the type is not a reference. -/
inductive HasIntake (r : Registry) : MoveType → Intake → Prop
  | signer : HasIntake r .signer .signer
  | context {t : MoveType} : r.tagOf t = .txContext → HasIntake r t .context
  | object {id : DefId} {args : List MoveType} {d : StructDef} {cells : List Storage.Cell}
      {fs : Forms} : r.tagOf (.struct id args) ≠ .txContext →
      (r.shape (.struct id args)).isObject = true → r.requireObject id args = .ok d →
      r.storageLayout id args = .ok cells → FieldForms r (.struct id args) fs →
      HasIntake r (.struct id args) (.object fs)
  | value {t : MoveType} {form : Form} : r.tagOf t ≠ .txContext →
      (r.shape t).isObject = false → HasForm r t form → form.decodable = true →
      HasIntake r t (.value form)

/-- Where the parameters of a function come from. -/
inductive PlanOf (r : Registry) : List MoveType → Plan → Prop
  | nil : PlanOf r [] []
  | value {t : MoveType} {k : Intake} {ts : List MoveType} {ks : Plan} : HasIntake r t k →
      PlanOf r ts ks → PlanOf r (t :: ts) ((false, k) :: ks)
  | ref {m : Bool} {t : MoveType} {k : Intake} {ts : List MoveType} {ks : Plan} :
      HasIntake r t k → PlanOf r ts ks → PlanOf r (.ref m t :: ts) ((true, k) :: ks)

def Numbered (p : Program) : Prop :=
  ∀ (f : Nat) (t : FuncType) (locals : List ValType) (body : Code),
    p.funcs[f]? = some (.code t locals body) → t.params.length + locals.length ≤ UInt32.size

/-- What the function of a request does. -/
def Serves (r : Registry) : Table
  | "swap_i32", [], f, p => IsSwap32 p f
  | "swap_i64", [], f, p => IsSwap64 p f
  | "swap_bytes_16", [], f, p => IsReverse p 16 f
  | "swap_bytes_32", [], f, p => IsReverse p 32 f
  | "assert_zero", [], f, p =>
    p.funcs[f.toNat]? = some (.code ⟨[.i32, .i32], []⟩ [] Prelude.requireZeroBody)
  | "add_u256", [], f, p => IsAddWide p f
  | "storage_next_slot", [], f, p => IsStepSlot p f
  | "equal_bytes32", [], f, p => IsSameWord p f
  | "write_object_slot", [], f, p => IsDeriveSlot p f
  | "locate_object", [], f, p => ∀ id, Computes p f [.i32 id] (Storage.locating id) fun _ => []
  | "storage_save_fields", [t], f, p => Numbered p → ∀ fs, FieldForms r t fs → ∀ rec slot,
    Computes p f [.i32 rec, .i32 slot] (Storage.storingAll fs rec slot 0) fun _ => []
  | "storage_read_fields", [t], f, p => ∀ fs, FieldForms r t fs → ∀ slot,
    Computes p f [.i32 slot] (Storage.readingRecord fs slot) fun a => [.i32 a]
  | "storage_save", [t], f, p => Numbered p → ∀ fs, FieldForms r t fs → ∀ rec owner,
    Computes p f [.i32 rec, .i32 owner] (Storage.saving fs rec owner) fun _ => []
  | "storage_read", [t], f, p => ∀ fs, FieldForms r t fs → ∀ owner id,
    Computes p f [.i32 owner, .i32 id] (Storage.retrieving fs owner id) fun a => [.i32 a]
  | "storage_load", [t], f, p => ∀ fs, FieldForms r t fs → ∀ id,
    Computes p f [.i32 id] (Storage.loading fs id) fun a => [.i32 a]
  | "storage_delete", [t], f, p => ∃ id args cells, t = .struct id args ∧
    r.storageLayout id args = .ok cells ∧ ∀ rec owner,
      Computes p f [.i32 rec, .i32 owner] (Storage.deleting cells.length rec owner) fun _ => []
  | "pack", [t], f, p => ∀ form, HasForm r t form → IsPacker p form f
  | "unpack", [t], f, p => ∀ form, HasForm r t form → form.decodable = true ∧ IsUnpacker p form f
  | "pack_values", ts, f, p => ∃ fs, TupleForms r ts fs ∧
    ∀ rec, Computes p f [.i32 rec] (packingTuple fs rec) fun a => [.i32 a]
  | "unpack_values", ts, f, p => ∃ plan, PlanOf r ts plan ∧
    ∀ base, Computes p f [.i32 base] (takingTuple plan base) fun a => [.i32 a]
  | _, _, _, _ => True

variable {r : Registry} {H : Program → Prop}

/-! ## Routines -/

theorem makes_swap32 : Makes (Serves r) H swap32 fun f p => IsSwap32 p f := by
  refine Makes.request (S := Serves r) fun name => .define (.pure fun p _ f hf v => ?_)
  exact ⟨_, _, _, hf, rfl, fun vm => sim_swap32Body v vm⟩

theorem makes_swap64 : Makes (Serves r) H swap64 fun f p => IsSwap64 p f := by
  refine .bind makes_swap32 fun swap => ?_
  refine Makes.request (S := Serves r) fun name => .define (.pure fun p hp f hf v => ?_)
  exact ⟨_, _, _, hf, rfl, fun vm => sim_swap64Body hp.2 v vm⟩

theorem makes_reverseBlock16 :
    Makes (Serves r) H (Prelude.reverseBlock 16) fun f p => IsReverse p 16 f := by
  refine .bind makes_swap64 fun swap => ?_
  refine Makes.request (S := Serves r) fun name => .define (.pure fun p hp f hf src dst => ?_)
  exact ⟨_, _, _, hf, rfl, fun vm => sim_reverseBlockBody_16 hp.2 src dst vm⟩

theorem makes_reverseBlock32 :
    Makes (Serves r) H (Prelude.reverseBlock 32) fun f p => IsReverse p 32 f := by
  refine .bind makes_swap64 fun swap => ?_
  refine Makes.request (S := Serves r) fun name => .define (.pure fun p hp f hf src dst => ?_)
  exact ⟨_, _, _, hf, rfl, fun vm => sim_reverseBlockBody_32 hp.2 src dst vm⟩

theorem makes_requireZeroBody : Makes (Serves r) H Prelude.requireZero fun f p =>
    p.funcs[f.toNat]? = some (.code ⟨[.i32, .i32], []⟩ [] Prelude.requireZeroBody) :=
  Makes.request (S := Serves r) fun _ => .define (.pure fun _ _ _ hf => hf)

theorem isRequireZero_of_body {p : Program} {f : FuncId} (hf : p.funcs[f.toNat]? =
    some (.code ⟨[.i32, .i32], []⟩ [] Prelude.requireZeroBody)) : IsRequireZero p f :=
  fun a n => ⟨_, _, _, hf, rfl, fun vm => sim_requireZeroBody a n vm⟩

theorem makes_requireZero :
    Makes (Serves r) H Prelude.requireZero fun f p => IsRequireZero p f :=
  makes_requireZeroBody.mono (fun _ hp => hp) fun _ _ _ hf => isRequireZero_of_body hf

/-! ## Records -/

theorem mapM_stackSize {fields : FieldShapes} {fs : Forms} (h : HaveForms r fields.types fs)
    {sizes : List UInt32}
    (hsizes : (fields.toList.mapM fun (name, s) => within name s.type.stackSize) = .ok sizes)
    (start : UInt32) :
    Registry.placeFrom start sizes = (fs.places start, start + UInt32.ofNat fs.record) := by
  match fields, fs, h with
  | .nil, _, .nil =>
    cases hsizes
    simp [Registry.placeFrom, Forms.places, Forms.record]
  | .cons name s rest, .cons _ f fs, .cons hf hfs =>
    obtain ⟨n, ns, hn, hns, rfl⟩ := mapM_cons_eq_ok hsizes
    have hslot : n = f.slotWord := by
      have := Shape.within_eq_ok hn
      rw [hf.stackSize_eq] at this
      cases this
      rfl
    rw [Form.slotWord] at hslot
    subst hslot
    simp only [Registry.placeFrom, mapM_stackSize hfs hns, Forms.places, Forms.record, Form.place,
      Bool.false_eq_true, if_false, UInt32.ofNat_add, UInt32.add_assoc]

theorem layout_eq {fields : FieldShapes} (h : HaveForms r fields.types fs)
    (hlayout : fields.layout = .ok (offsets, size)) :
    offsets = fs.places 0 ∧ size = UInt32.ofNat fs.record := by
  obtain ⟨sizes, hsizes, heq⟩ := Shape.map_eq_ok hlayout
  rw [mapM_stackSize h hsizes, UInt32.zero_add] at heq
  exact Prod.mk.inj heq

/-! ## Packers -/

abbrev PacksType (r : Registry) (t : MoveType) (f : FuncId) (p : Program) : Prop :=
  ∀ form, HasForm r t form → IsPacker p form f

section

variable {p : Program} {f : FuncId} {t : MoveType} {form : Form} {locals : List ValType}
  {code : Code}

/-- A packer of values that are held in 32-bit registers. -/
theorem isPacker_of_narrow
    (hf : p.funcs[f.toNat]? = some (.code ⟨packerParams t, []⟩ locals code))
    (hform : form.wide = false)
    (hbody : BodyPacks p form (locals.map Value.zero) code) : IsPacker p form f := by
  intro v w base hv
  rw [hform] at hv
  cases v with
  | i64 x => cases hv
  | i32 x => exact ⟨_, _, _, hf, rfl, fun vm => hbody x w base vm⟩

theorem isPacker_of_wide
    (hf : p.funcs[f.toNat]? = some (.code ⟨packerParams t, []⟩ locals code))
    (hform : form.wide = true)
    (hsim : ∀ v w base vm,
      Sim p code (vm.frame ([.i64 v, .i32 w, .i32 base] ++ locals.map Value.zero) [])
        (Leaves (fun _ => []) 0) ((packing form (.i64 v) w base).run vm)) : IsPacker p form f := by
  intro v w base hv
  rw [hform] at hv
  cases v with
  | i32 x => cases hv
  | i64 x => exact ⟨_, _, _, hf, rfl, fun vm => hsim x w base vm⟩

end

theorem makes_packWord (name : String) (t : MoveType) :
    Makes (Serves r) H (packWord name t) (PacksType r t) := by
  unfold packWord
  split
  iterate 4
    · refine .define (.bind makes_swap32 fun swap => .pure fun p hp f hf form hform => ?_)
      cases hform
      exact isPacker_of_narrow hf rfl fun v w base vm => sim_packSmall hp.2 v w base vm
  · refine .define (.bind makes_swap32 fun swap => .pure fun p hp f hf form hform => ?_)
    cases hform
    exact isPacker_of_narrow hf rfl fun v w base vm =>
      Sim.leaves_going (sim_writeTag rfl vm hp.2 rfl le_rfl (by decide) (by simp))
  · refine .bind makes_swap64 fun swap => .define (.pure fun p hp f hf form hform => ?_)
    cases hform
    exact isPacker_of_wide hf rfl fun v w base vm =>
      Sim.leaves_nothing (sim_writeU64 rfl vm hp.2 rfl)
  · refine .bind makes_reverseBlock16 fun swap => .define (.pure fun p hp f hf form hform => ?_)
    cases hform
    exact isPacker_of_narrow hf rfl fun v w base vm =>
      Sim.leaves_nothing (sim_writeU128 rfl vm hp.2 rfl)
  · refine .bind makes_reverseBlock32 fun swap => .define (.pure fun p hp f hf form hform => ?_)
    cases hform
    exact isPacker_of_narrow hf rfl fun v w base vm =>
      Sim.leaves_nothing (sim_writeU256 rfl vm hp.2 rfl)
  · refine .define (.pure fun p hp f hf form hform => ?_)
    cases hform
    exact isPacker_of_narrow hf rfl sim_packAddress
  · exact .define (.throw _)

theorem makes_packTagged (hH : ∀ p, H p → HasAllocator p) (name : String) {d : StructDef}
    {args : List MoveType} (hd : r.structOf d.id args = .ok d) (htag : d.tag ≠ .none) :
    Makes (Serves r) H (packTagged name d (.struct d.id args))
      (PacksType r (.struct d.id args)) := by
  unfold packTagged
  split
  · rename_i hstring
    refine .define (.bind makes_swap32 fun swap => .pure fun p hp f hf form hform => ?_)
    obtain ⟨-, rfl⟩ | ⟨n, h, -⟩ | ⟨h, -⟩ | ⟨h, -⟩ := hform.of_tag hd htag
    · exact isPacker_of_narrow hf rfl (sim_packStringBody (hH p hp.1) hp.2)
    all_goals
      rw [hstring] at h
      cases h
  · rename_i hstring
    refine .define (.pure fun p _ f hf form hform => ?_)
    obtain ⟨h, -⟩ | htag | htag | htag := hform.of_tag hd htag
    · exact absurd h hstring
    · obtain ⟨n, htag, rfl⟩ := htag
      exact isPacker_of_narrow hf rfl (sim_packBytesBody (.inl ⟨n, htag, rfl⟩))
    · obtain ⟨htag, rfl⟩ := htag
      exact isPacker_of_narrow hf rfl (sim_packBytesBody (.inr (.inl ⟨htag, rfl⟩)))
    · obtain ⟨htag, rfl⟩ := htag
      exact isPacker_of_narrow hf rfl (sim_packBytesBody (.inr (.inr ⟨htag, rfl⟩)))

theorem makes_packRequest {s : Shape} {gen : Bool → String → Generate FuncId}
    (h : ∀ b name, s.isDynamic r = .ok b → Makes (Serves r) H (gen b name) (PacksType r s.type)) :
    Makes (Serves r) H (packRequest r s gen) (PacksType r s.type) :=
  .lift fun b hb => Makes.request (S := Serves r) fun name => h b name hb

mutual

theorem makes_packShape {H : Program → Prop} (hH : ∀ p, H p → HasAllocator p) :
    ∀ s : Shape, s.Follows r → Makes (Serves r) H (packShape r s) (PacksType r s.type)
  | .vector e, h => by
    rw [packShape]
    refine makes_packRequest fun _ name _ => ?_
    refine .bind (.under (makes_packShape hH e h)) fun func => ?_
    refine .lift fun stride hstride => .lift fun head hhead => ?_
    refine .define (.bind makes_swap32 fun swap => .pure fun p hp f hf form hform => ?_)
    cases hform with
    | vector hform =>
      obtain rfl : stride = _ := Except.ok.inj (hstride.symm.trans hform.stackSize_eq)
      obtain rfl := Shape.headSize_eq (s := e) h hform hhead
      exact isPacker_of_narrow hf rfl (sim_packVectorBody (hH p hp.1.1) hp.2
        ⟨rfl, hform.register_eq, rfl, hp.1.2 _ hform⟩ rfl)
  | .struct d args fields, h => by
    rw [packShape]
    refine makes_packRequest fun dynamic name hdynamic => ?_
    refine .lift fun (offsets, size) hlayout => ?_
    refine .bind (makes_packFields hH d.name fields offsets h.2.2.2.1) fun parts => ?_
    have hparts : ∀ p, (H p ∧ ∀ fs start, HaveForms r fields.types fs →
        offsets = fs.places start → PartsPack p parts fs start) →
        ∀ form, HasForm r (.struct d.id args) form →
          ∃ fs, form = .struct fs ∧ fs.dynamic = dynamic ∧ PartsPack p parts fs 0 := by
      intro p hp form hform
      obtain ⟨fs, rfl, hfs⟩ := Shape.fields_of_struct h hform
      have hdyn := (Shape.agrees_of_isDynamic (s := .struct d args fields) h hform hdynamic).1
      exact ⟨fs, rfl, by simpa [Form.dynamic] using hdyn, hp.2 fs 0 hfs (layout_eq hfs hlayout).1⟩
    cases dynamic with
    | true =>
      refine .define (.bind makes_swap32 fun swap => .pure fun p hp f hf form hform => ?_)
      obtain ⟨fs, rfl, hdyn, hfs⟩ := hparts p hp.1 form hform
      exact isPacker_of_narrow hf rfl (sim_packDynamicBody (hH p hp.1.1) hp.2 hdyn hfs)
    | false =>
      refine .define (.pure fun p hp f hf form hform => ?_)
      obtain ⟨fs, rfl, hdyn, hfs⟩ := hparts p hp form hform
      exact isPacker_of_narrow hf rfl (sim_packStaticBody hdyn hfs)
  | .tagged d args, h => by
    rw [packShape]
    exact makes_packRequest fun _ name _ => makes_packTagged hH name h.1 h.2
  | .bool, _ | .int _, _ | .address, _ | .signer, _ | .param _, _ | .ref _ _, _ | .enum _ _, _
  | .missing _ _, _ | .broken _ _ _, _ | .endless _ _, _ => by
    unfold packShape
    exact makes_packRequest fun _ name _ => makes_packWord name _

theorem makes_packFields {H : Program → Prop} (hH : ∀ p, H p → HasAllocator p) (owner : String) :
    ∀ (fields : FieldShapes) (offsets : List UInt32), fields.Follow r →
      Makes (Serves r) H (packFields r owner fields offsets) fun parts p =>
        ∀ fs start, HaveForms r fields.types fs → offsets = fs.places start →
          PartsPack p parts fs start
  | .nil, offsets, _ => by
    rw [packFields]
    · refine .pure fun p _ fs start hfs _ => ?_
      cases hfs
      trivial
    · nofun
  | .cons name s rest, [], _ => by
    rw [packFields]
    · refine .pure fun p _ fs start hfs hplaces => ?_
      cases hfs
      cases hplaces
    · nofun
  | .cons name s rest, offset :: offsets, h => by
    rw [packFields]
    refine .bind (.under (makes_packShape hH s h.1)) fun func => ?_
    refine .lift fun head hhead => ?_
    refine .bind (makes_packFields (fun p hp => hH p hp.1) owner rest offsets h.2) fun parts => ?_
    refine .pure fun p hp fs start hfs hplaces => ?_
    cases hfs with
    | cons hform hfs =>
      obtain ⟨rfl, hrest⟩ := List.cons.inj hplaces
      exact ⟨⟨rfl, hform.register_eq, Shape.headSize_eq h.1 hform hhead, hp.1.2 _ hform⟩, rfl,
        hp.2 _ _ hfs hrest⟩

end

/-! ## Tuples -/

theorem places_of_tupleForms (h : TupleForms r ts fs) {sizes : List UInt32}
    (hsizes : ts.mapM MoveType.stackSize = .ok sizes) (start : UInt32) :
    Registry.placeFrom start sizes = (fs.places start, start + UInt32.ofNat fs.record) := by
  induction h generalizing sizes start with
  | nil =>
    cases hsizes
    simp [Registry.placeFrom, Forms.places, Forms.record]
  | value hf _ ih =>
    obtain ⟨n, ns, hn, hns, rfl⟩ := mapM_cons_eq_ok hsizes
    obtain rfl := Except.ok.inj (hn.symm.trans hf.stackSize_eq)
    simp only [Registry.placeFrom, ih hns, Forms.places, Forms.record, Form.place, Form.slotWord,
      Bool.false_eq_true, if_false, UInt32.ofNat_add, UInt32.add_assoc]
  | ref hf _ ih =>
    obtain ⟨n, ns, hn, hns, rfl⟩ := mapM_cons_eq_ok hsizes
    cases hn
    simp only [Registry.placeFrom, ih hns, Forms.places, Forms.record, Form.place, if_true,
      UInt32.ofNat_add, UInt32.add_assoc]
    rfl

theorem recordPlaces_eq (h : TupleForms r ts fs)
    (hplaces : Registry.recordPlaces ts = .ok (offsets, size)) :
    offsets = fs.places 0 ∧ size = UInt32.ofNat fs.record := by
  obtain ⟨sizes, hsizes, heq⟩ := Shape.map_eq_ok hplaces
  rw [places_of_tupleForms h hsizes, UInt32.zero_add] at heq
  exact Prod.mk.inj heq

theorem length_recordPlaces
    (h : Registry.recordPlaces ts = .ok (offsets, size)) : ts.length = offsets.length := by
  obtain ⟨sizes, hsizes, heq⟩ := Shape.map_eq_ok h
  have hoffsets : offsets = (Registry.placeFrom 0 sizes).1 := congrArg Prod.fst heq
  rw [hoffsets, Registry.length_placeFrom]
  exact (mapM_eq_ok.1 hsizes).length_eq

/-- The forms with one more in front, behind a reference or not. -/
theorem TupleForms.cons_unbox {phase : Phase} {t type : MoveType} {boxed : Bool}
    (hunbox : unbox phase t = .ok (type, boxed)) {f : Form} (hf : HasForm r type f)
    (hfs : TupleForms r ts fs) : TupleForms r (t :: ts) (.cons boxed f fs) := by
  unfold unbox at hunbox
  split at hunbox
  · cases hunbox
  · cases hunbox
    exact .ref hf hfs
  · cases hunbox
    exact .value hf hfs

theorem makes_pack (hH : ∀ p, H p → HasAllocator p) (t : MoveType) :
    Makes (Serves c.registry) H (pack c t) (PacksType c.registry t) := by
  have h := makes_packShape hH (c.registry.shape t) (Shape.follows_shape t)
  rwa [Shape.type_shape] at h

theorem makes_tupleParts {c : Context} (hc : c.registry.Made) {H : Program → Prop}
    (hH : ∀ p, H p → HasAllocator p) : ∀ (ts : List MoveType) (offsets : List UInt32),
      ts.length = offsets.length →
      Makes (Serves c.registry) H (tupleParts c (ts.zip offsets)) fun parts p =>
        ∃ fs, TupleForms c.registry ts fs ∧
          ∀ start, offsets = fs.places start → PartsPack p parts fs start
  | [], offsets, _ => .pure fun p _ => ⟨.nil, .nil, fun _ _ => trivial⟩
  | t :: ts, offset :: offsets, hlength => by
    rw [List.zip_cons_cons, tupleParts]
    refine .lift fun (type, boxed) hunbox => ?_
    refine .bind (makes_pack hH type) fun func => .lift fun head hhead => ?_
    refine .bind (makes_tupleParts hc (fun p hp => hH p hp.1) ts offsets
      (Nat.succ.inj hlength)) fun parts => ?_
    refine .pure fun p hp => ?_
    obtain ⟨⟨_, hfunc⟩, fs, hfs, hparts⟩ := hp
    obtain ⟨form, hform⟩ := hc.exists_form_of_headSize hhead
    refine ⟨.cons boxed form fs, hfs.cons_unbox hunbox hform, fun start hplaces => ?_⟩
    obtain ⟨rfl, hrest⟩ := List.cons.inj hplaces
    have hhead' : head = form.headWord := Shape.headSize_eq (Shape.follows_shape type)
      (by rwa [Shape.type_shape]) hhead
    exact ⟨⟨rfl, hform.register_eq, hhead', hfunc _ hform⟩, rfl, hparts _ hrest⟩

/-- The function packs the values of a record of these types. -/
abbrev PacksTuple (r : Registry) (ts : List MoveType) (f : FuncId) (p : Program) : Prop :=
  ∃ fs, TupleForms r ts fs ∧
    ∀ rec, Computes p f [.i32 rec] (packingTuple fs rec) fun a => [.i32 a]

theorem makes_packValues (hc : c.registry.Made) (hH : ∀ p, H p → HasAllocator p)
    (ts : List MoveType) :
    Makes (Serves c.registry) H (packValues c ts) (PacksTuple c.registry ts) := by
  refine .lift fun (offsets, size) hplaces => ?_
  refine Makes.request (S := Serves c.registry) fun name => ?_
  refine .bind (makes_tupleParts hc hH ts offsets (length_recordPlaces hplaces)) fun parts =>
    .define (.pure fun p hp f hf => ?_)
  obtain ⟨halloc, fs, hfs, hparts⟩ := hp
  refine ⟨fs, hfs, fun rec => ⟨_, _, _, hf, rfl, fun vm => ?_⟩⟩
  exact sim_packValuesBody (hH p halloc) (hparts 0 (recordPlaces_eq hfs hplaces).1) rec vm

end Codec

end MoveCodec
