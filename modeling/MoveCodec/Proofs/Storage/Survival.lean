import MoveCodec.Proofs.Storage.LayoutAgreement

/-!
# Objects survive in storage

An object that was saved can be read again, whatever other objects were saved and deleted in between:
a call changes the slots of its own object and no others.
-/
namespace MoveCodec.Storage

open Wasm Assembly Machine Prelude Codec

/-! ## Changes -/

/-- A function that saves or deletes objects of some type was called and returned. The object takes
`n` slots from `s` on. -/
inductive Change {c : Context} (d : Deployment c) : Slot → Nat → Vm → Vm → Prop
  | call {id : DefId} {args : List MoveType} {f : FuncId} {cells : List Cell} {rest : Forms}
      {x : (Forms.cons false .uid rest).Val} {rec owner : UInt32} {out : List Value} {vm vm' : Vm} :
      d.Offers (save c id args) f ∨ d.Offers (delete c id args) f →
      c.registry.storageLayout id args = .ok cells →
      FieldForms c.registry (.struct id args) (.cons false .uid rest) →
      Presents c.options (.struct (.cons false .uid rest)) x rec owner vm →
      d.Returns f [.i32 rec, .i32 owner] vm out vm' →
      Change d (filedAt c.options vm owner x.1) cells.length vm vm'

/-- Calls one after another save and delete objects that take no slot of the `n` slots from `s` on.
Between the calls memory can change in any way, but storage cannot. -/
inductive Others {c : Context} (d : Deployment c) (s : Slot) (n : Nat) : Host → Host → Prop
  | refl (h : Host) : Others d s n h h
  | step {h : Host} {s' : Slot} {n' : Nat} {vm vm' : Vm} : Others d s n h vm.host →
      Change d s' n' vm vm' → (slots s n).Disjoint (slots s' n') → Others d s n h vm'.host

section

variable {c : Context} {d : Deployment c} {s : Slot} {n : Nat} {vm vm' : Vm} {h h' : Host}

/-- A change commits words along the slots of its object. -/
theorem Change.commits (hc : c.registry.Made) (hchange : Change d s n vm vm') :
    ∃ ws, ws.length = n ∧ Commits s ws vm.host vm'.host := by
  obtain ⟨hf, hcells, hforms, hpresents, hreturns⟩ := hchange
  rcases hf with hf | hf
  · obtain ⟨s, cells', hobject, hcells'⟩ := storable_of_offers hf
    cases hcells.symm.trans hcells'
    obtain ⟨hflat, hlength⟩ := words_of_object hc hobject hcells hforms
    have hnarrow := hpresents.narrow
    rw [Form.Narrow] at hnarrow
    obtain ⟨vm₁, hstore, -, hfiles⟩ := (ends_save hc hf hforms hflat hpresents).of_returns hreturns
    have hhost : vm₁.host = vm'.host := congrArg Store.host hstore
    exact ⟨_, hlength _ hnarrow.2, hhost ▸ hfiles.commits⟩
  · obtain ⟨vm₁, hstore, -, hfiles⟩ := (ends_delete hc hf hcells hpresents).of_returns hreturns
    have hhost : vm₁.host = vm'.host := congrArg Store.host hstore
    exact ⟨_, List.length_replicate .., hhost ▸ hfiles.commits⟩

/-- A change leaves nothing cached, and of what was committed it changes only the slots of its
object. -/
theorem Change.keeps (hc : c.registry.Made) (hchange : Change d s n vm vm') (hp : vm.host.pending = []) :
    vm'.host.pending = [] ∧ ∀ k ∉ slots s n, vm'.host.committed k = vm.host.committed k := by
  obtain ⟨ws, rfl, hcommits⟩ := hchange.commits hc
  exact ⟨hcommits.settled, fun k hk => hcommits.committed_eq hp hk⟩

/-- Changes elsewhere keep what was committed along the slots. -/
theorem Others.keeps (hc : c.registry.Made) (hothers : Others d s n h h') (hp : h.pending = []) :
    h'.pending = [] ∧ ∀ k ∈ slots s n, h'.committed k = h.committed k := by
  induction hothers with
  | refl => exact ⟨hp, fun _ _ => rfl⟩
  | step _ hchange hdisjoint ih =>
    obtain ⟨hp₁, hsame⟩ := ih
    obtain ⟨hp₂, hkeeps⟩ := hchange.keeps hc hp₁
    exact ⟨hp₂, fun k hk => (hkeeps k fun hk' => hdisjoint hk hk').trans (hsame k hk)⟩

theorem Others.loads (hc : c.registry.Made) {ws : List Word} (hothers : Others d s ws.length h h')
    (hp : h.pending = []) (hloads : Loads h s ws) : Loads h' s ws := by
  obtain ⟨hp', hsame⟩ := hothers.keeps hc hp
  refine hloads.congr fun k hk => ?_
  rw [h'.load_of_pending_nil hp', h.load_of_pending_nil hp, hsame k hk]

end

/-! ## Reading what was saved -/

theorem ends_read {c : Context} {d : Deployment c} {g : FuncId} {id : DefId} {args : List MoveType}
    {rest : Forms} {x : (Forms.cons false .uid rest).Val} {owner ident : UInt32} {vm : Vm}
    (hc : c.registry.Made) (hg : d.Offers (read c id args) g)
    (hforms : FieldForms c.registry (.struct id args) (.cons false .uid rest))
    (hflat : (Forms.cons false .uid rest).flat = true)
    (hnarrow : (Form.struct (.cons false .uid rest)).Narrow x) (h : Equipped c.options vm)
    (howner : owner.toNat + 32 ≤ vm.memory.size) (hident : heapStart.toNat ≤ ident.toNat)
    (hfit : ident.toNat + 32 ≤ vm.top.toNat) (hword : wordOf vm.memory.byte ident.toNat = x.1)
    (hloads : Loads vm.host (filedAt c.options vm owner x.1) ((Forms.cons false .uid rest).words x)) :
    d.Ends g [.i32 owner, .i32 ident] vm (32 + (Form.struct (.cons false .uid rest)).demand)
      fun out vm' => ∃ p, out = [.i32 p] ∧
        Retrieves c.options (.struct (.cons false .uid rest)) x p vm vm' :=
  Deployment.ends_of_computes (hg.serves hc (makes_read (fun _ hp => hp) id args) _ hforms owner ident)
    (tries_retrieving h howner hident hfit hword hflat hnarrow hloads)

/-- Objects survive in storage. An object that is saved can be read, at once or after other objects
were saved and deleted, and the record that is read holds the value that was saved; and no save or
delete changes a slot that is not one of its own object. The calls can fail only for want of space. -/
theorem saved_objects_survive (c : Context) (hc : c.registry.Made) (d : Deployment c) (id : DefId)
    (args : List MoveType) (f g : FuncId) (hsave : d.Offers (save c id args) f)
    (hread : d.Offers (read c id args) g) :
    (∃ cells rest, c.registry.storageLayout id args = .ok cells ∧
      FieldForms c.registry (.struct id args) (.cons false .uid rest) ∧
      ∀ (vm : Vm) (x : (Forms.cons false .uid rest).Val) (rec owner : UInt32),
        Presents c.options (.struct (.cons false .uid rest)) x rec owner vm →
        cells.length ≤ 2 ^ 256 →
        d.Ends f [.i32 rec, .i32 owner] vm 32 fun out vm₁ => out = [] ∧ Equipped c.options vm₁ ∧
          ∀ (vm₂ : Vm) (owner' ident : UInt32),
            Others d (filedAt c.options vm owner x.1) cells.length vm₁.host vm₂.host →
            Equipped c.options vm₂ → owner'.toNat + 32 ≤ vm₂.memory.size →
            wordOf vm₂.memory.byte owner'.toNat = wordOf vm.memory.byte owner.toNat →
            heapStart.toNat ≤ ident.toNat → ident.toNat + 32 ≤ vm₂.top.toNat →
            wordOf vm₂.memory.byte ident.toNat = x.1 →
            d.Ends g [.i32 owner', .i32 ident] vm₂
              (32 + (Form.struct (.cons false .uid rest)).demand) fun out vm₃ =>
                ∃ p, out = [.i32 p] ∧
                  Retrieves c.options (.struct (.cons false .uid rest)) x p vm₂ vm₃) ∧
    ∀ (s : Slot) (n : Nat) (vm vm' : Vm), Change d s n vm vm' → vm.host.pending = [] →
      vm'.host.pending = [] ∧ ∀ k ∉ slots s n, vm'.host.committed k = vm.host.committed k := by
  refine ⟨?_, fun s n vm vm' hchange hp => hchange.keeps hc hp⟩
  obtain ⟨s, cells, hobject, hcells⟩ := storable_of_offers hsave
  obtain ⟨fields, rest, hfields, hhave, -⟩ := exists_object_forms hc hobject hcells
  have hforms : FieldForms c.registry (.struct id args) (.cons false .uid rest) :=
    ⟨fields, hfields, hhave⟩
  obtain ⟨hflat, hlength⟩ := words_of_object hc hobject hcells hforms
  refine ⟨cells, rest, hcells, hforms, fun vm x rec owner hpresents hroom => ?_⟩
  have hnarrow := hpresents.narrow
  have hwords : ((Forms.cons false .uid rest).words x).length = cells.length := by
    rw [Form.Narrow] at hnarrow
    exact hlength x hnarrow.2
  refine (ends_save hc hsave hforms hflat hpresents).mono fun out vm₁ ⟨hout, hfiles⟩ =>
    ⟨hout, hfiles.equipped, fun vm₂ owner' ident hothers hequipped howner hsame hstart hfit hword => ?_⟩
  have hcommits := hfiles.commits
  rw [← hwords] at hothers hroom
  have hloads := hothers.loads hc hcommits.settled (hcommits.loads hroom)
  refine ends_read hc hread hforms hflat hnarrow hequipped howner hstart hfit hword ?_
  rwa [filedAt, hsame]

theorem Purse.apart : ∀ k ∈ slots (objectSlot (baseSlot 0) sharedOwnerKey Purse.ident) 5,
    k ∉ slots (objectSlot (baseSlot 0) frozenOwnerKey Purse.ident) 5 := by
  -- Each hash is computed once, behind the one inside it.
  have hshared : mappingSlot (baseSlot 0) sharedOwnerKey =
      .ofNat 0xada5013122d395ba3c54772283fb069b10426056ef8ca54750cb9bb552a59e7d := by decide +kernel
  have hfrozen : mappingSlot (baseSlot 0) frozenOwnerKey =
      .ofNat 0xabbb5caa7dda850e60932de0934eb1f9d0f59695050f761dc64e443e5030a569 := by decide +kernel
  have hfirst : mappingSlot (mappingSlot (baseSlot 0) sharedOwnerKey) Purse.ident =
      .ofNat 0xbc6c9b392b8c1254bcea1192d5cb98db3634739fbd10172e4e59fb62d5d6c10c := by
    rw [hshared]
    decide +kernel
  have hsecond : mappingSlot (mappingSlot (baseSlot 0) frozenOwnerKey) Purse.ident =
      .ofNat 0x97cf25d57dffa18625871fee7fea9ea903b6f395324b553b2381441e0fa52f31 := by
    rw [hfrozen]
    decide +kernel
  rw [objectSlot, hfirst, objectSlot, hsecond]
  decide +kernel

/-- A shared purse is read after a frozen purse with the same identifier was saved. -/
theorem saved_objects_survive_purse :
    ∃ (d : Deployment Purse.context) (f g : FuncId) (vm vm₁ vm₂ vm₃ : Vm) (p : UInt32)
      (bs : List Block), d.Offers (save Purse.context Codec.Purse.purse.id []) f ∧
      d.Offers (read Purse.context Codec.Purse.purse.id []) g ∧
      d.Returns f [.i32 heapStart, .i32 sharedOwner] vm [] vm₁ ∧
      (∃ vm' vm'', vm'.host = vm₁.host ∧ vm''.host = vm₂.host ∧
        Change d (objectSlot (baseSlot 0) frozenOwnerKey Purse.ident) 5 vm' vm'') ∧
      (∀ k ∉ slots (objectSlot (baseSlot 0) frozenOwnerKey Purse.ident) 5,
        vm₂.host.committed k = vm₁.host.committed k) ∧
      d.Returns g [.i32 sharedOwner, .i32 348] vm₂ [.i32 p] vm₃ ∧
      (Form.struct (.cons false .uid Purse.contents)).Holds true vm₃.memory.byte (.i32 p)
        Purse.value bs := by
  obtain ⟨d, hd, hpages⟩ := Purse.roomy
  obtain ⟨f, hf⟩ := Purse.offers hd 2 rfl
  obtain ⟨g, hg⟩ := Purse.offers hd 3 rfl
  obtain ⟨vm, hstore, hequipped⟩ := d.exists_equipped Codec.Purse.made_registry
  rw [← hstore] at hpages
  obtain ⟨⟨cells, rest, hcells, hforms, hsurvive⟩, hkeeps⟩ := saved_objects_survive Purse.context
    Codec.Purse.made_registry d Codec.Purse.purse.id [] f g hf hg
  obtain rfl := Purse.eq_contents hforms
  obtain ⟨s, cells', hobject, hcells'⟩ := storable_of_offers hf
  have hflat := (words_of_object Codec.Purse.made_registry hobject hcells' hforms).1
  have hlength := Purse.length_cells hcells
  have hspace (x : Host) {n : Nat} (hn : n ≤ 65000) :=
    Purse.le_space (hequipped.withHost x) hpages hn
  -- The shared purse is saved.
  have hshared := Purse.presents (hequipped.withHost {}) (by decide : sharedOwner.toNat < 65504)
  obtain ⟨_, vm₁, hreturns, rfl, -, hread⟩ :=
    (hsurvive _ _ _ _ hshared (by rw [hlength]; norm_num)).returns (hspace _ (by decide))
  -- The frozen one is saved.
  have hfrozen := Purse.presents (hequipped.withHost vm₁.host) (by decide : frozenOwner.toNat < 65504)
  obtain ⟨_, vm', hreturns', rfl, -⟩ :=
    (ends_save Codec.Purse.made_registry hf hforms hflat hfrozen).returns (hspace _ (by decide))
  have hchange := Change.call (.inl hf) hcells hforms hfrozen hreturns'
  rw [hlength, Purse.filedAt_frozen (hequipped.withHost _)] at hchange
  obtain ⟨hsettled, -⟩ := hkeeps _ _ _ _ (Change.call (.inl hf) hcells hforms hshared hreturns) rfl
  obtain ⟨-, hsame⟩ := hkeeps _ _ _ _ hchange hsettled
  have hlast : (furnish { vm with host := vm'.host } Purse.image).host = vm'.host := host_furnish _ _
  have hfirst : (furnish { vm with host := vm₁.host } Purse.image).host = vm₁.host := host_furnish _ _
  rw [hfirst] at hsame
  have hothers : Others d (objectSlot (baseSlot 0) sharedOwnerKey Purse.ident) 5 vm₁.host
      (furnish { vm with host := vm'.host } Purse.image).host := by
    rw [hlast]
    exact .step (by rw [hfirst]; exact .refl _) hchange fun k hk hk' => Purse.apart k hk hk'
  -- The shared one is read.
  rw [hlength, Purse.filedAt_shared (hequipped.withHost _)] at hread
  have hequipped' : Equipped Purse.context.options (furnish { vm with host := vm'.host } Purse.image) :=
    equipped_furnish (hequipped.withHost vm'.host) (by simp [Purse.length_image])
  have hsize := hequipped'.size_le
  obtain ⟨_, vm₃, hreturns₃, p, rfl, ⟨bs, hholds, -⟩, -⟩ := (hread _ sharedOwner 348 hothers hequipped'
    (by have : sharedOwner.toNat = 160 := rfl; omega)
    (hequipped'.fitted.shared.trans hshared.equipped.fitted.shared.symm) (by decide)
    (by rw [toNat_top_furnish (by simp [Purse.length_image]), Purse.length_image]; decide)
    (Purse.wordOf_ident (hequipped.withHost _))).returns (hspace _ (by decide))
  refine ⟨d, f, g, _, vm₁, _, vm₃, p, bs, hf, hg, hreturns, ⟨_, vm', hfirst, hlast.symm, hchange⟩, ?_,
    hreturns₃, hholds⟩
  rw [hlast]
  exact hsame

end MoveCodec.Storage
