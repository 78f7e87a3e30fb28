import MoveCodec.Proofs.Storage.Deployment

/-!
# Slots of objects

The functions of a module that work on slots agree with the definitions of slots: one derives the
first slot of an object in memory, the other one steps from a slot to the next.
-/
namespace MoveCodec.Storage

open Wasm Assembly Machine Machine.Compute Prelude Codec

variable {c : Context} {d : Deployment c} {f : FuncId} {vm : Vm}

theorem Equipped.becomes {o : Options} {g : Nat → UInt8} {n : Nat} {vm' : Vm} (h : Equipped o vm)
    (hb : vm.Becomes n g vm') (hg : ∀ i, ¬ Loose i → g i = vm.memory.byte i) : Equipped o vm' := by
  refine ⟨hb.sane, ?_⟩
  rw [hb.byte_eq]
  exact h.fitted.congr hg

/-- The derivation of a slot writes to the derived slot and to the input of the hash. -/
theorem derivation_outside (g : Nat → UInt8) (base : Slot) (owner id : Word) {i : Nat}
    (hslot : i < 128 ∨ 160 ≤ i) (hhash : i < 256 ∨ 320 ≤ i) :
    derivation g base owner id i = g i := by
  rw [derivation, patch_outside (by simpa using hslot), patch_outside (by simpa using hhash)]

/-- A call derives the first slot of an object. -/
theorem returns_deriveSlot (hc : c.registry.Made) (hf : d.Offers (deriveSlot c) f)
    (h : Equipped c.options vm) {owner id : UInt32} (howner : owner.toNat + 32 ≤ vm.memory.size)
    (hid : heapStart ≤ id) (hfit : id.toNat + 32 ≤ vm.memory.size) :
    ∃ vm', d.Returns f [.i32 owner, .i32 id] vm [] vm' ∧ Equipped c.options vm' ∧
      vm.Becomes 0 (derivation vm.memory.byte (baseSlot c.options.objectsSlot)
        (wordOf vm.memory.byte owner.toNat) (wordOf vm.memory.byte id.toNat)) vm' := by
  have hcode : IsDeriveSlot d.program f := hf.serves hc (makes_deriveSlot c)
  obtain ⟨vm', hrun, hb⟩ := runs_deriveSlot h.sane howner hid hfit
  have hbase : wordOf vm.memory.byte 96 = baseSlot c.options.objectsSlot := h.fitted.base
  rw [hbase] at hb
  refine ⟨vm', Deployment.returns_of_computes (hcode owner id) hrun, h.becomes hb fun i hi => ?_, hb⟩
  unfold Loose at hi
  exact derivation_outside _ _ _ _ (by omega) (by omega)

theorem returns_stepSlot (hc : c.registry.Made) (hf : d.Offers stepSlot f)
    (h : Equipped c.options vm) {ptr : UInt32} (hptr : heapStart ≤ ptr)
    (hfit : ptr.toNat + 32 ≤ vm.memory.size) :
    ∃ vm', d.Returns f [.i32 ptr] vm [] vm' ∧ Equipped c.options vm' ∧
      vm.Becomes 0 (patch vm.memory.byte ptr.toNat
        (nextSlot (wordOf vm.memory.byte ptr.toNat)).toList) vm' := by
  have hcode : IsStepSlot d.program f := hf.serves hc makes_stepSlot
  obtain ⟨vm', hrun, hb⟩ := runs_stepSlot h.sane h.fitted.one hptr hfit
  have hstart : 320 ≤ ptr.toNat := UInt32.le_iff_toNat_le.1 hptr
  refine ⟨vm', Deployment.returns_of_computes (hcode ptr) hrun, h.becomes hb fun i hi => ?_, hb⟩
  unfold Loose at hi
  exact patch_outside (.inl (by omega))

theorem repeats_stepSlot (hc : c.registry.Made) (hf : d.Offers stepSlot f)
    (h : Equipped c.options vm) {ptr : UInt32} (hptr : heapStart ≤ ptr)
    (hfit : ptr.toNat + 32 ≤ vm.memory.size) (n : Nat) :
    ∃ vm', d.Repeats f [.i32 ptr] n vm vm' ∧ Equipped c.options vm' ∧
      vm.Becomes 0 (patch vm.memory.byte ptr.toNat
        (nextSlot^[n] (wordOf vm.memory.byte ptr.toNat)).toList) vm' := by
  induction n generalizing vm with
  | zero =>
    refine ⟨vm, rfl, h, ?_⟩
    rw [Function.iterate_zero, id_eq, patch_wordOf]
    exact h.sane.becomes
  | succ n ih =>
    obtain ⟨vm₁, hreturns, h₁, hb₁⟩ := returns_stepSlot hc hf h hptr hfit
    obtain ⟨vm', hrepeats, h', hb⟩ := ih h₁ (hfit.trans hb₁.size_le)
    refine ⟨vm', ⟨vm₁, hreturns, hrepeats⟩, h', ?_⟩
    rw [hb₁.byte_eq, wordOf_patch, patch_patch (by simp)] at hb
    exact hb₁.trans hb

/-- The functions of a module that work on slots agree with the definitions of slots, from the new
instance on. Whatever the module was built for, deriving leaves the first slot of an object in its
reserved place, stepping replaces a slot by the number behind it and changes nothing else, and so
some steps lead along the slots in a row. -/
theorem slot_functions_agree (c : Context) (hc : c.registry.Made) (d : Deployment c) :
    (∃ vm : Vm, vm.store = d.inst.store ∧ Equipped c.options vm) ∧
    (∀ f, d.Offers (deriveSlot c) f → ∀ (vm : Vm) (owner id : UInt32), Equipped c.options vm →
      owner.toNat + 32 ≤ vm.memory.size → heapStart ≤ id → id.toNat + 32 ≤ vm.memory.size →
      ∃ vm', d.Returns f [.i32 owner, .i32 id] vm [] vm' ∧ Equipped c.options vm' ∧
        vm'.host = vm.host ∧ vm'.top = vm.top ∧
        wordOf vm'.memory.byte derivedSlot.toNat = objectSlot (baseSlot c.options.objectsSlot)
          (wordOf vm.memory.byte owner.toNat) (wordOf vm.memory.byte id.toNat) ∧
        ∀ i, i < 128 ∨ 160 ≤ i → i < 256 ∨ 320 ≤ i → vm'.memory.byte i = vm.memory.byte i) ∧
    (∀ f, d.Offers stepSlot f → ∀ (vm : Vm) (ptr : UInt32), Equipped c.options vm →
      heapStart ≤ ptr → ptr.toNat + 32 ≤ vm.memory.size →
      ∀ s, wordOf vm.memory.byte ptr.toNat = s →
      (∃ vm', d.Returns f [.i32 ptr] vm [] vm' ∧ Equipped c.options vm' ∧
        vm'.host = vm.host ∧ vm'.top = vm.top ∧
        vm'.memory.byte = patch vm.memory.byte ptr.toNat (nextSlot s).toList ∧
        (nextSlot s).toNat = (s.toNat + 1) % 2 ^ 256) ∧
      ∀ n, ∃ vm', d.Repeats f [.i32 ptr] n vm vm' ∧ Equipped c.options vm' ∧
        vm'.host = vm.host ∧ vm'.top = vm.top ∧
        ∃ s', (slots s (n + 1))[n]? = some s' ∧
          vm'.memory.byte = patch vm.memory.byte ptr.toNat s'.toList) := by
  refine ⟨d.exists_equipped hc, fun f hf vm owner id h howner hid hfit => ?_,
    fun f hf vm ptr h hptr hfit s hs => ⟨?_, fun n => ?_⟩⟩
  · obtain ⟨vm', hreturns, h', hb⟩ := returns_deriveSlot hc hf h howner hid hfit
    refine ⟨vm', hreturns, h', hb.host_eq, UInt32.toNat_inj.1 hb.top_eq, ?_, fun i hslot hhash => ?_⟩
    · rw [hb.byte_eq]
      exact wordOf_patch _ _ _
    · rw [hb.byte_eq]
      exact derivation_outside _ _ _ _ hslot hhash
  · subst hs
    obtain ⟨vm', hreturns, h', hb⟩ := returns_stepSlot hc hf h hptr hfit
    refine ⟨vm', hreturns, h', hb.host_eq, UInt32.toNat_inj.1 hb.top_eq, hb.byte_eq, ?_⟩
    rw [nextSlot_eq, Word.toNat_ofNat]
    rfl
  · subst hs
    obtain ⟨vm', hrepeats, h', hb⟩ := repeats_stepSlot hc hf h hptr hfit n
    exact ⟨vm', hrepeats, h', hb.host_eq, UInt32.toNat_inj.1 hb.top_eq, _,
      getElem?_slots _ (Nat.lt_succ_self n), hb.byte_eq⟩

theorem slot_functions_agree_purse :
    ∃ (d : Deployment Purse.context) (f g : FuncId) (vm vm₁ vm₂ : Vm),
      vm.store = d.inst.store ∧ d.Offers (deriveSlot Purse.context) f ∧ d.Offers stepSlot g ∧
      d.Returns f [.i32 sharedOwner, .i32 heapStart] vm [] vm₁ ∧
      wordOf vm₁.memory.byte derivedSlot.toNat =
        objectSlot (baseSlot 0) sharedOwnerKey (wordOf vm.memory.byte heapStart.toNat) ∧
      d.Repeats g [.i32 heapStart] 3 vm₁ vm₂ ∧
      (slots (wordOf vm₁.memory.byte heapStart.toNat) 4)[3]? =
        some (wordOf vm₂.memory.byte heapStart.toNat) := by
  obtain ⟨d, hd, -⟩ := Purse.roomy
  obtain ⟨f, hf⟩ := Purse.offers hd 0 rfl
  obtain ⟨g, hg⟩ := Purse.offers hd 1 rfl
  obtain ⟨hnew, hderive, hstep⟩ := slot_functions_agree Purse.context Codec.Purse.made_registry d
  obtain ⟨vm, hstore, hequipped⟩ := hnew
  have hstart : heapStart.toNat = 320 := rfl
  have hshared : sharedOwner.toNat = 160 := rfl
  have hsize := hequipped.size_le
  obtain ⟨vm₁, hreturns, hequipped₁, -, -, hslot, -⟩ := hderive f hf vm sharedOwner heapStart
    hequipped (by omega) (UInt32.le_refl _) (by omega)
  have hsize₁ := hequipped₁.size_le
  obtain ⟨vm₂, hrepeats, -, -, -, s, hs, hbyte⟩ := (hstep g hg vm₁ heapStart hequipped₁
    (UInt32.le_refl _) (by omega) _ rfl).2 3
  refine ⟨d, f, g, vm, vm₁, vm₂, hstore, hf, hg, hreturns, ?_, hrepeats, ?_⟩
  · rw [hslot, hequipped.fitted.shared]
    rfl
  · rw [hs, hbyte, wordOf_patch]

end MoveCodec.Storage
