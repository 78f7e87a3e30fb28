import MoveCodec.Proofs.Storage.ObjectRuns

/-!
# Storage code and the layout

Tools find the words of an object with the layout of its type and the definitions of slots. What the
functions of a module do to the storage of the host is what these say: saving commits a word for each
entry of the layout, in this order, and deleting clears just these words.
-/
namespace MoveCodec.Storage

open Wasm Assembly Machine Prelude Codec

/-! ## Objects -/

section

variable {r : Registry} {id : DefId} {args : List MoveType} {s : StructDef} {cells : List Cell}

/-- An object starts with its identifier. -/
theorem fields_of_requireObject (h : r.requireObject id args = .ok s) :
    ∃ f fs, r.fields id args = .ok (f :: fs) ∧ r.tagOf f.type = .uid := by
  obtain ⟨d, -, h⟩ := bind_eq_ok h
  split at h
  · cases h
  obtain ⟨fs, hfs, h⟩ := bind_eq_ok h
  split at h
  · cases h
  rename_i htag
  cases fs with
  | nil => simp at htag
  | cons f fs => exact ⟨f, fs, hfs, by simpa using htag⟩

theorem eq_uid_of_tagOf {t : MoveType} {form : Form} (h : HasForm r t form) (ht : r.tagOf t = .uid) :
    form = .uid := by
  cases t with
  | struct id args =>
    obtain ⟨n, hn, -⟩ | ⟨-, rfl⟩ | ⟨hid, -⟩ := form_of_fixed h (.inl ht)
    · cases ht.symm.trans hn
    · rfl
    · cases ht.symm.trans hid
  | _ => cases ht

/-- The fields of an object that can be stored have forms, the first of which is that of an
identifier, and the layout is that of the fields. -/
theorem exists_object_forms (hr : r.Made) (hobject : r.requireObject id args = .ok s)
    (hcells : r.storageLayout id args = .ok cells) :
    ∃ fields rest, r.fields id args = .ok fields ∧
      HaveForms r (fields.map (·.type)) (.cons false .uid rest) ∧
      AllLaidOut r s.name fields (.cons false .uid rest) cells := by
  have hs := structOf_of_requireObject hobject
  obtain ⟨_, -, h⟩ := bind_eq_ok hcells
  obtain ⟨shapes, hshapes, -⟩ := bind_eq_ok h
  have hheld := held_of_stored hobject hcells hshapes
  rw [storageLayout_eq hs hshapes] at hcells
  obtain ⟨fields, hfields, heq⟩ := bind_eq_ok hshapes
  cases heq
  obtain ⟨forms, hforms⟩ := hheld.inline.exists_forms hr hheld.follow
  have htypes : (FieldShapes.ofList (fields.map fun f => (f.name, r.shape f.type))).types =
      fields.map (·.type) := by
    simp [FieldShapes.types_ofList, Shape.type_shape]
  rw [htypes] at hforms
  obtain ⟨f, fs, hfs, htag⟩ := fields_of_requireObject hobject
  cases hfields.symm.trans hfs
  have hlaid := allLaidOut hheld.follow htypes (by simp [FieldShapes.names_ofList]) hforms hcells
  cases hforms with
  | cons hform hforms =>
    obtain rfl := eq_uid_of_tagOf hform htag
    exact ⟨_, _, hfs, .cons hform hforms, hlaid⟩

/-- The values of an object type take as many words as its layout has entries. -/
theorem words_of_object (hr : r.Made) (hobject : r.requireObject id args = .ok s)
    (hcells : r.storageLayout id args = .ok cells) {fs : Forms}
    (hforms : FieldForms r (.struct id args) fs) :
    fs.flat = true ∧ ∀ x, fs.Narrow x → (fs.words x).length = cells.length := by
  obtain ⟨fields, rest, hfields, hforms', hflat, hlaid⟩ := exists_object_forms hr hobject hcells
  obtain ⟨_, hfields', hforms⟩ := hforms
  cases hfields.symm.trans hfields'
  cases hforms.unique hforms'
  refine ⟨hflat, fun x hnarrow => ?_⟩
  obtain ⟨ls, hls, hshows⟩ := hlaid x hnarrow
  rw [words_of_listsAll hls, List.length_map, hshows.length_eq]

/-- The first slot of the object with an identifier under the owner at `owner`. -/
def filedAt (o : Options) (vm : Vm) (owner : UInt32) (ident : Word) : Slot :=
  objectSlot (baseSlot o.objectsSlot) (wordOf vm.memory.byte owner.toNat) ident

end

/-! ## Calls -/

section

variable {c : Context} {d : Deployment c} {f : FuncId} {id : DefId} {args : List MoveType}
  {rest : Forms} {x : (Forms.cons false .uid rest).Val} {rec owner : UInt32} {vm : Vm}

theorem storable_of_offers (h : d.Offers (save c id args) f) : ∃ s cells,
    c.registry.requireObject id args = .ok s ∧ c.registry.storageLayout id args = .ok cells := by
  obtain ⟨a, b, -, hrun, -⟩ := h
  exact storable_of_run hrun

theorem ends_save (hc : c.registry.Made) (hf : d.Offers (save c id args) f)
    (hforms : FieldForms c.registry (.struct id args) (.cons false .uid rest))
    (hflat : (Forms.cons false .uid rest).flat = true)
    (h : Presents c.options (.struct (.cons false .uid rest)) x rec owner vm) :
    d.Ends f [.i32 rec, .i32 owner] vm 32 fun out vm' => out = [] ∧
      Files c.options (filedAt c.options vm owner x.1) ((Forms.cons false .uid rest).words x) vm vm' := by
  have hcode := hf.serves hc (makes_save (fun _ hp => hp) id args) d.numbered _ hforms rec owner
  exact (Deployment.ends_of_computes hcode (tries_saving h hflat)).mono
    fun _ _ ⟨_, hout, hfiles⟩ => ⟨hout, hfiles⟩

theorem ends_delete {cells : List Cell} (hc : c.registry.Made) (hf : d.Offers (delete c id args) f)
    (hcells : c.registry.storageLayout id args = .ok cells)
    (h : Presents c.options (.struct (.cons false .uid rest)) x rec owner vm) :
    d.Ends f [.i32 rec, .i32 owner] vm 32 fun out vm' => out = [] ∧
      Files c.options (filedAt c.options vm owner x.1) (List.replicate cells.length Word.zero) vm vm' := by
  obtain ⟨cells', hcells', hcode⟩ := hf.serves hc (makes_delete (fun _ hp => hp) id args)
  cases hcells.symm.trans hcells'
  exact (Deployment.ends_of_computes (hcode rec owner) (tries_deleting h cells.length)).mono
    fun _ _ ⟨_, hout, hfiles⟩ => ⟨hout, hfiles⟩

end

/-- Storage code follows the layout. For every object type with a layout there are a word for each
entry of the layout and a part of the value for each word, at the field path of the entry; saving
commits these words along the slots of the object, and deleting commits zeros there. The calls can
fail only for want of a buffer for a slot. -/
theorem storage_code_follows_layout (c : Context) (hc : c.registry.Made) (d : Deployment c)
    (id : DefId) (args : List MoveType) (s : StructDef) (cells : List Cell)
    (hobject : c.registry.requireObject id args = .ok s)
    (hcells : c.registry.storageLayout id args = .ok cells) :
    ∃ fields rest, c.registry.fields id args = .ok fields ∧
      HaveForms c.registry (fields.map (·.type)) (.cons false .uid rest) ∧
      ∀ (vm : Vm) (x : (Forms.cons false .uid rest).Val) (rec owner : UInt32),
        Presents c.options (.struct (.cons false .uid rest)) x rec owner vm →
        ∃ ls, ListsAll c.registry s.name fields (.cons false .uid rest) x ls ∧
          List.Forall₂ (fun cell l => cell.Shows l l.word) cells ls ∧
          (∀ f, d.Offers (save c id args) f →
            d.Ends f [.i32 rec, .i32 owner] vm 32 fun out vm' => out = [] ∧ Equipped c.options vm' ∧
              Commits (filedAt c.options vm owner x.1) (ls.map Leaf.word) vm.host vm'.host) ∧
          (∀ f, d.Offers (delete c id args) f →
            d.Ends f [.i32 rec, .i32 owner] vm 32 fun out vm' => out = [] ∧ Equipped c.options vm' ∧
              Commits (filedAt c.options vm owner x.1) (List.replicate cells.length Word.zero)
                vm.host vm'.host) := by
  obtain ⟨fields, rest, hfields, hforms, hflat, hlaid⟩ := exists_object_forms hc hobject hcells
  refine ⟨fields, rest, hfields, hforms, fun vm x rec owner h => ?_⟩
  have hnarrow := h.narrow
  rw [Form.Narrow] at hnarrow
  obtain ⟨ls, hls, hshows⟩ := hlaid x hnarrow.2
  refine ⟨ls, hls, hshows, fun f hf => ?_, fun f hf => ?_⟩
  · refine (ends_save hc hf ⟨fields, hfields, hforms⟩ hflat h).mono
      fun out vm' ⟨hout, hfiles⟩ => ⟨hout, hfiles.equipped, ?_⟩
    rw [← words_of_listsAll hls]
    exact hfiles.commits
  · exact (ends_delete hc hf hcells h).mono
      fun out vm' ⟨hout, hfiles⟩ => ⟨hout, hfiles.equipped, hfiles.commits⟩

namespace Purse

variable {vm : Vm} (h : Equipped context.options vm)

include h

theorem filedAt_shared : filedAt context.options (furnish vm image) sharedOwner value.1 =
    objectSlot (baseSlot 0) sharedOwnerKey ident :=
  congrArg (objectSlot (baseSlot 0) · ident) (equipped_furnish h (by simp [length_image])).fitted.shared

theorem filedAt_frozen : filedAt context.options (furnish vm image) frozenOwner value.1 =
    objectSlot (baseSlot 0) frozenOwnerKey ident :=
  congrArg (objectSlot (baseSlot 0) · ident) (equipped_furnish h (by simp [length_image])).fitted.frozen

end Purse

theorem storage_code_follows_layout_purse :
    ∃ (d : Deployment Purse.context) (f g : FuncId) (vm vm₁ vm₂ vm₃ : Vm),
      d.Offers (save Purse.context Codec.Purse.purse.id []) f ∧
      d.Offers (delete Purse.context Codec.Purse.purse.id []) g ∧
      d.Returns f [.i32 heapStart, .i32 sharedOwner] vm [] vm₁ ∧
      (slots (objectSlot (baseSlot 0) sharedOwnerKey Purse.ident) 5).map vm₁.host.committed =
        [Purse.ident, .ofNat 7, .ofNat 1, ownerKey (Vector.replicate 20 3), .ofNat 9] ∧
      vm₂.host = vm₁.host ∧ d.Returns g [.i32 heapStart, .i32 sharedOwner] vm₂ [] vm₃ ∧
      (slots (objectSlot (baseSlot 0) sharedOwnerKey Purse.ident) 5).map vm₃.host.committed =
        List.replicate 5 Word.zero := by
  obtain ⟨d, hd, hpages⟩ := Purse.roomy
  obtain ⟨f, hf⟩ := Purse.offers hd 2 rfl
  obtain ⟨g, hg⟩ := Purse.offers hd 4 rfl
  obtain ⟨vm, hstore, hequipped⟩ := d.exists_equipped Codec.Purse.made_registry
  rw [← hstore] at hpages
  obtain ⟨s, cells, hobject, hcells⟩ := storable_of_offers hf
  obtain ⟨fields, rest, hfields, hforms, h⟩ := storage_code_follows_layout Purse.context
    Codec.Purse.made_registry d Codec.Purse.purse.id [] s cells hobject hcells
  obtain rfl := Purse.eq_contents ⟨fields, hfields, hforms⟩
  have hspace (x : Host) := Purse.le_space (hequipped.withHost x) hpages (n := 32) (by decide)
  obtain ⟨ls, hls, -, hsave, -⟩ := h _ _ _ _
    (Purse.presents (hequipped.withHost {}) (by decide : sharedOwner.toNat < 65504))
  have hwords := (words_of_listsAll hls).symm.trans Purse.words_value
  obtain ⟨_, vm₁, hreturns, rfl, -, hcommits⟩ := (hsave f hf).returns (hspace _)
  obtain ⟨_, -, -, -, hdelete⟩ := h _ _ _ _
    (Purse.presents (hequipped.withHost vm₁.host) (by decide : sharedOwner.toNat < 65504))
  obtain ⟨_, vm₃, hreturns₃, rfl, -, hcommits₃⟩ := (hdelete g hg).returns (hspace _)
  rw [hwords, Purse.filedAt_shared (hequipped.withHost _)] at hcommits
  rw [Purse.length_cells hcells, Purse.filedAt_shared (hequipped.withHost _)] at hcommits₃
  have hroom : 5 ≤ 2 ^ 256 := by norm_num
  have hcommitted := hcommits₃.words (List.length_replicate.trans_le hroom)
  rw [List.length_replicate] at hcommitted
  exact ⟨d, f, g, _, vm₁, _, vm₃, hf, hg, hreturns, hcommits.words hroom,
    host_furnish { vm with host := vm₁.host } Purse.image, hreturns₃, hcommitted⟩

end MoveCodec.Storage
