import MoveCodec.Proofs.Types.Histories

/-!
# Layouts the virtual machine knows

Code for identifiers and strings follows pointers without a look at the fields of their definitions. It
is right where a tag stands for one definition with the layout of the framework. That is so after the
framework was registered, and stays so until a definition is added in a module of the framework under
one of the names there: a tag follows from the name alone, and two definitions can have one name.
-/
namespace MoveCodec

open List

/-- The tags of definitions with fields that code goes through by itself. -/
def NativeTag.isPointer : NativeTag → Bool
  | .uid | .id | .string => true
  | _ => false

namespace Registry

/-- The definition is not generic and has one field, which takes one word at the start of its record. -/
structure Wraps (r : Registry) (id : DefId) (t : MoveType) : Prop where
  exists_def : ∃ d, r.findStruct? id = some d ∧ d.arity = 0 ∧ d.fields.map (·.type) = [t]
  places : r.fieldPlaces id [] = .ok ([0], 4)

/-- The tags of identifiers and strings stand for the layouts of the framework. -/
structure NativeLayout (r : Registry) : Prop where
  uid : ∀ id args, r.tagOf (.struct id args) = .uid → ∃ t, r.Wraps id t ∧ r.tagOf t = .id
  id : ∀ id args, r.tagOf (.struct id args) = .id → r.Wraps id .address
  string : ∀ id args, r.tagOf (.struct id args) = .string → r.Wraps id (.vector .u8)
  existsUnique : ∀ tag : NativeTag, tag.isPointer = true → ∃! d, d ∈ r.structs ∧ d.tag = tag

end Registry

namespace Framework

/-- The definitions of identifiers and strings, with their tags. -/
def pointers : List StructDef :=
  [{ id := identifier, name := "ID", abilities := data, fields := [⟨"bytes", .address⟩], tag := .id },
   { id := uniqueIdentifier, name := "UID", abilities := { store := true },
     fields := [⟨"id", .struct identifier []⟩], tag := .uid },
   { id := string, name := "String", abilities := data, fields := [⟨"bytes", .vector .u8⟩],
     tag := .string }]

theorem pointers_register : (register {}).2.structs.filter (·.tag.isPointer) = pointers := by
  decide

theorem existsUnique_pointers {tag : NativeTag} (h : tag.isPointer = true) :
    ∃! d, d ∈ pointers ∧ d.tag = tag := by
  cases tag with
  | none | txContext | bytes => cases h
  | uid | id | string => simp [pointers, ExistsUnique]

/-- Once the framework is there, it is not registered again. -/
theorem register_of_isSome {r : Registry} (h : (r.findStruct? identifier).isSome = true) :
    (register r).2 = r := by
  have hdefinitions : ∃ d ds, definitions = d :: ds ∧ d.id = identifier := ⟨_, _, rfl, rfl⟩
  obtain ⟨d, ds, hds, hid⟩ := hdefinitions
  rw [register, hds, foldl_cons]
  cases hadd : r.addStruct d with
  | error e =>
    simp only [hadd]
    rw [foldl_fixed' fun _ => rfl]
  | ok x =>
    have hfresh := (Registry.addStruct_eq_ok.1 hadd).1.fresh
    rw [hid] at hfresh
    rw [hfresh] at h
    cases h

end Framework

namespace Registry

variable {r r' : Registry} {d : StructDef}

/-- Of the definitions with tags of identifiers and strings the registry has the framework's alone. -/
def Pristine (r : Registry) : Prop := r.structs.filter (·.tag.isPointer) = Framework.pointers

theorem Pristine.findStruct? (h : r.Pristine) (hr : r.Sound) (hd : d ∈ Framework.pointers) :
    r.findStruct? d.id = some d := by
  rw [← h, mem_filter] at hd
  obtain ⟨x, hx⟩ : ∃ x, r.findStruct? d.id = some x :=
    Option.isSome_iff_exists.1 (find?_isSome.2 ⟨d, hd.1, by simp⟩)
  have hid : x.id = d.id := by simpa using find?_some hx
  rw [hx, (inj_on_of_nodup_map hr.structs_nodup) (mem_of_find?_eq_some hx) hd.1 hid]

/-- A type with the tag of a definition of the framework is of that definition. -/
theorem Pristine.findStruct?_of_tagOf (h : r.Pristine) {id : DefId} {args : List MoveType}
    (hd : d ∈ Framework.pointers) (hid : r.tagOf (.struct id args) = d.tag) :
    r.findStruct? id = some d := by
  have htag : d.tag.isPointer = true := by
    rw [← h, mem_filter] at hd
    exact hd.2
  rw [tagOf] at hid
  cases hx : r.findStruct? id with
  | none =>
    rw [hx] at hid
    rw [← hid] at htag
    cases htag
  | some x =>
    rw [hx] at hid
    have hid : x.tag = d.tag := hid
    have hmem : x ∈ Framework.pointers := by
      rw [← h, mem_filter]
      exact ⟨mem_of_find?_eq_some hx, hid ▸ htag⟩
    rw [(Framework.existsUnique_pointers htag).unique ⟨hmem, hid⟩ ⟨hd, rfl⟩]

theorem Pristine.addStruct {d' : StructDef} {claim : Nat} (h : r.Pristine)
    (hadd : r.addStruct d claim = .ok (d', r'))
    (hd : (NativeTag.reserved d.id.home d.name).isPointer = false) : r'.Pristine := by
  obtain ⟨-, rfl, rfl⟩ := addStruct_eq_ok.1 hadd
  rw [Pristine, filter_append, h]
  simp [hd]

/-- The one field of a definition of the framework stands at the start of its record. -/
theorem wraps_of_findStruct? {id : DefId} {f : Field} (hd : r.findStruct? id = some d)
    (harity : d.arity = 0) (hfields : d.fields = [f]) (hf : f.type.stackSize = .ok 4) :
    r.Wraps id f.type := by
  refine ⟨⟨d, hd, harity, by rw [hfields]; rfl⟩, ?_⟩
  have hall : r.fields id [] = .ok [f] := by
    rw [Registry.fields, structOf_eq_ok.2 ⟨hd, by simp [harity]⟩]
    exact congrArg Except.ok hfields
  simp only [fieldPlaces, hall, bind, Except.bind, mapM_cons, mapM_nil, within, hf]
  rfl

theorem Pristine.nativeLayout (h : r.Pristine) (hr : r.Sound) : r.NativeLayout := by
  refine ⟨fun id args hid => ?_, fun id args hid => ?_, fun id args hid => ?_, fun tag htag => ?_⟩
  · have hfind := h.findStruct?_of_tagOf (d := Framework.pointers[1]) (getElem_mem _) hid
    have htarget := h.findStruct? hr (d := Framework.pointers[0]) (getElem_mem _)
    refine ⟨.struct Framework.identifier [], wraps_of_findStruct? hfind rfl rfl rfl, ?_⟩
    exact congrArg (fun x : Option StructDef => (x.map (·.tag)).getD .none) htarget
  · have hfind := h.findStruct?_of_tagOf (d := Framework.pointers[0]) (getElem_mem _) hid
    exact wraps_of_findStruct? hfind rfl rfl rfl
  · have hfind := h.findStruct?_of_tagOf (d := Framework.pointers[2]) (getElem_mem _) hid
    exact wraps_of_findStruct? hfind rfl rfl rfl
  · have hmem (d : StructDef) : d ∈ r.structs ∧ d.tag = tag ↔ d ∈ Framework.pointers ∧ d.tag = tag := by
      rw [← h, mem_filter]
      constructor
      · rintro ⟨hd, rfl⟩
        exact ⟨⟨hd, htag⟩, rfl⟩
      · exact fun hd => ⟨hd.1.1, hd.2⟩
    simpa only [hmem] using Framework.existsUnique_pointers htag

/-- A call that adds no definition under a name of the framework. -/
theorem Pristine.apply (h : r.Pristine) (hr : r.Sound) {e : Edit}
    (he : ∀ d claim, e = .struct d claim → (NativeTag.reserved d.id.home d.name).isPointer = false) :
    (e.apply r).2.Pristine := by
  cases e with
  | struct d claim =>
    rw [Edit.apply]
    split
    · exact h.addStruct ‹_› (he d claim rfl)
    · exact h
  | enum d =>
    rw [Edit.apply]
    split
    · rw [Pristine, structs_of_addEnum ‹_›]
      exact h
    · exact h
  | framework =>
    have hfind := h.findStruct? hr (d := Framework.pointers[0]) (getElem_mem _)
    have hsome : (r.findStruct? Framework.identifier).isSome = true := Option.isSome_of_eq_some hfind
    rw [Edit.apply, Framework.register_of_isSome hsome]
    exact h
  | freeze => exact h

theorem Pristine.edited (h : r.Pristine) (hr : r.Made) {edits : List Edit}
    (hedits : ∀ d claim, Edit.struct d claim ∈ edits →
      (NativeTag.reserved d.id.home d.name).isPointer = false) : (r.edited edits).Pristine := by
  induction edits generalizing r with
  | nil => exact h
  | cons e edits ih =>
    refine ih (h.apply hr.sound fun d claim he => hedits d claim (by simp [he])) ?_
      fun d claim hmem => hedits d claim (by simp [hmem])
    exact made_edited hr [e]

/-- Tags guarantee layouts as long as no definition takes a name of the framework in its module. -/
theorem nativeLayout_edited (edits : List Edit)
    (hedits : ∀ d claim, Edit.struct d claim ∈ edits →
      (NativeTag.reserved d.id.home d.name).isPointer = false) :
    ((Framework.register {}).2.edited edits).NativeLayout := by
  have hr : (Framework.register {}).2.Made := register_induction .addStruct .empty
  have hpristine : (Framework.register {}).2.Pristine := Framework.pointers_register
  exact (hpristine.edited hr hedits).nativeLayout (made_edited hr edits).sound

/-- A struct with the name of the unique identifier in another module. -/
def namesake : StructDef where
  id := ⟨⟨Word.ofNat 0x42, "m"⟩, 0⟩
  name := "UID"
  fields := [⟨"x", .u8⟩]

theorem nativeLayout_namesake :
    ((Framework.register {}).2.edited [.struct namesake 0, .framework, .freeze]).NativeLayout := by
  refine nativeLayout_edited _ fun d claim hd => ?_
  simp only [mem_cons, Edit.struct.injEq, reduceCtorEq, not_mem_nil, or_false] at hd
  rw [hd.1]
  decide

/-- A struct with the name of the unique identifier in its module. -/
def impostor : StructDef := { namesake with id := ⟨.object, 7⟩ }

/-- The impostor is accepted and has the tag, but not the layout. -/
theorem not_nativeLayout_impostor :
    ¬ ∀ edits : List Edit, ((Framework.register {}).2.edited edits).NativeLayout := by
  intro h
  have hfind : ((Framework.register {}).2.edited [.struct impostor 0]).findStruct? impostor.id =
      some { impostor with tag := .uid } := by
    rfl
  have htag : ((Framework.register {}).2.edited [.struct impostor 0]).tagOf impostor.type = .uid := by
    rw [StructDef.type, tagOf, hfind]
    rfl
  obtain ⟨t, ⟨⟨d, hd, -, hfields⟩, -⟩, ht⟩ := (h [.struct impostor 0]).uid impostor.id [] htag
  cases hfind.symm.trans hd
  cases hfields
  cases ht

end Registry

end MoveCodec
