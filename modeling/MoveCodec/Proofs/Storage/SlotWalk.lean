import MoveCodec.Proofs.Storage.HostSlots
import MoveCodec.Proofs.Storage.StoredWords

/-!
# Walks along slots

Storage code goes through a value field by field and through a row of slots word by word. A walk that
stores a value caches its words along the row. A walk that finds these words along the row builds the
value again.
-/
namespace MoveCodec

open Machine Machine.Compute Codec Prelude

variable {slot : UInt32} {form : Form} {vm : Vm}

mutual

/-- The values of the form take a fixed number of words: no part is of variable size or stands behind
a reference. -/
def Form.flat : Form → Bool
  | .string | .vector _ => false
  | .struct fields => fields.flat
  | _ => true

def Forms.flat : Forms → Bool
  | .nil => true
  | .cons boxed f fs => !boxed && f.flat && fs.flat

end

theorem Form.single_of_flat (h : form.flat = true) (hplain : ∀ fs, form ≠ .struct fs) :
    form.single = true := by
  cases form with
  | string | vector => cases h
  | struct fs => exact absurd rfl (hplain fs)
  | _ => rfl

/-! ## Calls of the host -/

section

variable {vm vm' : Vm} {n : Nat} {f : Nat → UInt8}

theorem runs_storageLoad (key dst : UInt32) (hs : vm.Sane) (hkey : key.toNat + 32 ≤ vm.memory.size)
    (hdst : dst.toNat + 32 ≤ vm.memory.size) :
    Runs (host .storageLoad [key, dst]) vm () 0 (patch vm.memory.byte dst.toNat
      (vm.host.load (wordOf vm.memory.byte key.toNat)).toList) := by
  have hfit : dst.toNat + (vm.host.load (wordOf vm.memory.byte key.toNat)).toList.length ≤
      vm.memory.size := by
    simpa using hdst
  obtain ⟨vm', hrun, hb⟩ := runs_write hs hfit
  refine ⟨vm', ?_, hb⟩
  rw [← hrun]
  simp only [host, Host.call_load hkey hdst, Compute.write, if_pos hfit]

theorem run_storageCache (key src : UInt32) (hkey : key.toNat + 32 ≤ vm.memory.size)
    (hsrc : src.toNat + 32 ≤ vm.memory.size) :
    (host .storageCache [key, src]).run vm = .ok ((), { vm with
      host := vm.host.cache (wordOf vm.memory.byte key.toNat) (wordOf vm.memory.byte src.toNat) }) := by
  simp only [host, Host.call_cache hkey hsrc]

theorem run_storageFlush (x : UInt32) :
    (host .storageFlush [x]).run vm = .ok ((), { vm with host := vm.host.flush }) := rfl

theorem Machine.Vm.Sane.withHost (h : vm.Sane) (x : Host) : Vm.Sane { vm with host := x } :=
  ⟨h.1, h.2, h.3, h.4⟩

/-- What happens to memory does not depend on the host. -/
theorem Machine.Vm.Becomes.withHost (h : vm.Becomes n f vm') (x : Host) :
    Vm.Becomes { vm with host := x } n f { vm' with host := x } where
  top_eq := h.top_eq
  byte_eq := h.byte_eq
  size_le := h.size_le
  limit_eq := h.limit_eq
  reader_eq := h.reader_eq
  stop_eq := h.stop_eq
  host_eq := rfl
  sane := h.sane.withHost x
  space_le := h.space_le

end

namespace Storage

/-! ## Storing -/

/-- Addresses that a walk with its slot at `slot` uses. -/
def Working (slot : UInt32) (i : Nat) : Prop :=
  64 ≤ i ∧ i < 96 ∨ slot.toNat ≤ i ∧ i < slot.toNat + 32

/-- A walk with its slot at `slot` can start. -/
structure Poised (slot : UInt32) (vm : Vm) : Prop where
  sane : vm.Sane
  one : number vm.memory.byte 32 32 = 1
  start_le : 320 ≤ slot.toNat
  le_top : slot.toNat + 32 ≤ vm.top.toNat

theorem Poised.le_size (h : Poised slot vm) : slot.toNat + 32 ≤ vm.memory.size :=
  h.le_top.trans h.sane.top_le

/-- The words were cached along the slots from the one at `slot` on, which was moved past them. -/
structure Stores (slot : UInt32) (ws : List Word) (vm vm' : Vm) : Prop where
  becomes : Vm.Becomes { vm with host := caching vm.host (wordOf vm.memory.byte slot.toNat) ws } 0
    vm'.memory.byte vm'
  byte_eq : ∀ i, ¬ Working slot i → vm'.memory.byte i = vm.memory.byte i
  slot_eq : wordOf vm'.memory.byte slot.toNat =
    nextSlot^[ws.length] (wordOf vm.memory.byte slot.toNat)

section

variable {slot : UInt32} {vm vm₁ vm₂ : Vm} {ws vs : List Word}

theorem Stores.refl (hs : vm.Sane) : Stores slot [] vm vm := ⟨hs.becomes, fun _ _ => rfl, rfl⟩

theorem Stores.trans (h₁ : Stores slot ws vm vm₁) (h₂ : Stores slot vs vm₁ vm₂) :
    Stores slot (ws ++ vs) vm vm₂ where
  becomes := by
    have h := (h₁.becomes.withHost _).trans h₂.becomes
    rwa [h₁.slot_eq, h₁.becomes.host_eq, ← caching_append] at h
  byte_eq i hi := (h₂.byte_eq i hi).trans (h₁.byte_eq i hi)
  slot_eq := by
    rw [h₂.slot_eq, h₁.slot_eq, List.length_append, Nat.add_comm, Function.iterate_add_apply]

theorem Stores.poised (h : Stores slot ws vm vm₁) (hr : Poised slot vm) : Poised slot vm₁ where
  sane := h.becomes.sane
  one := by
    rw [← hr.one]
    have := hr.start_le
    exact number_congr (view_congr fun i hi => h.byte_eq _ (by unfold Working; omega))
  start_le := hr.start_le
  le_top := hr.le_top.trans (by rw [h.becomes.top_eq]; exact Nat.le_add_right _ _)

/-- Blocks between the reserved area and the slot keep their contents. -/
theorem Stores.same (h : Stores slot ws vm vm₁) {bs : List Block} (hbs : Within 320 slot.toNat bs) :
    Same vm.memory.byte vm₁.memory.byte bs := by
  intro b hb i hstart hstop
  have := hbs b hb
  exact (h.byte_eq i (by unfold Working; omega)).symm

/-- A word that is in its place is cached, and the walk moves on. -/
theorem stores_word (src : UInt32) (hr : Poised slot vm) (hsrc : src.toNat + 32 ≤ 320) :
    ∃ vm', (do
        host .storageCache [slot, src]
        Compute.stepSlot slot).run vm = .ok ((), vm') ∧
      Stores slot [wordOf vm.memory.byte src.toNat] vm vm' := by
  have hsize := hr.sane.start_le.trans hr.sane.top_le
  have hle := hr.le_size
  have hstart := hr.start_le
  rw [run_bind_ok (run_storageCache slot src hle (by omega))]
  obtain ⟨vm', hrun, hb⟩ := runs_stepSlot (hr.sane.withHost (vm.host.cache
    (wordOf vm.memory.byte slot.toNat) (wordOf vm.memory.byte src.toNat))) hr.one
    (UInt32.le_iff_toNat_le.2 hr.start_le) hr.le_size
  refine ⟨vm', hrun, hb.byte_eq ▸ hb, fun i hi => ?_, ?_⟩
  · rw [hb.byte_eq]
    exact patch_outside (by unfold Working at hi; simp; omega)
  · rw [hb.byte_eq]
    exact wordOf_patch _ _ _

end

/-- A value that lies between the reserved area and the slot is stored. -/
def StoresValue (form : Form) : Prop :=
  ∀ ⦃v : Value⦄ ⦃x : form.Val⦄ ⦃bs : List Block⦄ ⦃slot : UInt32⦄ ⦃vm : Vm⦄, form.flat = true →
    Poised slot vm → form.Holds true vm.memory.byte v x bs → Within 320 slot.toNat bs →
    ∃ vm', (storing form v slot).run vm = .ok ((), vm') ∧ Stores slot (form.words x) vm vm'

/-- The parts of a record that lies between the reserved area and the slot are stored. -/
def StoresRecord (fs : Forms) : Prop :=
  ∀ ⦃rec slot offset : UInt32⦄ ⦃x : fs.Val⦄ ⦃bs : List Block⦄ ⦃vm : Vm⦄, fs.flat = true →
    Poised slot vm → fs.Holds true vm.memory.byte (rec.toNat + offset.toNat) x bs →
    Within 320 slot.toNat bs → 320 ≤ rec.toNat + offset.toNat →
    rec.toNat + offset.toNat + fs.record ≤ slot.toNat →
    ∃ vm', (storingAll fs rec slot offset).run vm = .ok ((), vm') ∧ Stores slot (fs.words x) vm vm'

theorem storesValue_word (hplain : ∀ fs, form ≠ .struct fs) : StoresValue form := by
  intro v x bs slot vm hflat hr hx hbs
  have hsingle := Form.single_of_flat hflat hplain
  have hle := hr.le_size
  have hstart := hr.start_le
  obtain ⟨vm₁, hrun₁, hb₁⟩ := runs_storingWord hsingle hr.sane hx (hbs.mono (by omega) (by omega))
  have hslot : slotData.toNat = 64 := rfl
  have hlen : (form.word x).toList.length = 32 := by simp
  -- The word goes through its fixed place, which is in front of the slot.
  have hview : wordOf vm₁.memory.byte slot.toNat = wordOf vm.memory.byte slot.toNat := by
    rw [hb₁.byte_eq, wordOf_patch_outside (.inr (by omega))]
  have hr₁ : Poised slot vm₁ := by
    refine ⟨hb₁.sane, ?_, hr.start_le, hr.le_top.trans (by rw [hb₁.top_eq]; omega)⟩
    rw [← hr.one, hb₁.byte_eq]
    exact number_congr (view_patch_outside (.inl (by omega)))
  obtain ⟨vm₂, hrun₂, hstores⟩ := stores_word slotData hr₁ (by omega)
  refine ⟨vm₂, ?_, ?_, fun i hi => ?_, ?_⟩
  · rw [storing_word hplain, run_bind_ok hrun₁]
    exact hrun₂
  · have h := (hb₁.withHost _).trans hstores.becomes
    rw [hview, hb₁.host_eq, hb₁.byte_eq, wordOf_patch] at h
    rwa [Form.words_single hsingle]
  · rw [hstores.byte_eq i hi, hb₁.byte_eq]
    exact patch_outside (by unfold Working at hi; omega)
  · rw [hstores.slot_eq, hview, Form.words_single hsingle]
    rfl

mutual

theorem storesValue : ∀ form : Form, StoresValue form
  | .struct fields => by
    intro v x bs slot vm hflat hr hx hbs
    obtain ⟨p, rest, rfl, hx, rfl⟩ := hx
    rw [within_cons] at hbs
    have h0 : p.toNat + (0 : UInt32).toNat = p.toNat := Nat.add_zero _
    rw [storing, Form.words]
    exact storesRecord fields hflat hr (h0.symm ▸ hx) hbs.2 (h0.symm ▸ hbs.1.1) (h0.symm ▸ hbs.1.2)
  | .bool | .int _ | .address | .enum _ | .string | .bytes _ | .uid | .id | .vector _ =>
    storesValue_word nofun

theorem storesRecord : ∀ fs : Forms, StoresRecord fs
  | .nil => by
    intro rec slot offset x bs vm _ hr _ _ _ _
    rw [storingAll]
    exact ⟨vm, rfl, .refl hr.sane⟩
  | .cons boxed form fs => by
    intro rec slot offset x bs vm hflat hr hx hbs hstart hfit
    simp only [Forms.flat, Bool.and_eq_true, Bool.not_eq_true'] at hflat
    obtain ⟨⟨rfl, hform⟩, hfs⟩ := hflat
    obtain ⟨here, rest, hx, hxs, rfl⟩ := hx
    rw [within_append] at hbs
    have hnext := toNat_place form false (hfit.trans_lt slot.toNat_lt)
    have hplace : form.place false = slotSize form.wide := rfl
    rw [Forms.record, ← Nat.add_assoc] at hfit
    have hle := hr.le_size
    rw [if_neg Bool.false_ne_true] at hx
    obtain ⟨vm₁, hrun₁, h₁⟩ := storesValue form hform hr hx hbs.1
    have hrecord : Within 320 slot.toNat [⟨rec.toNat + offset.toNat + form.place false, fs.record⟩] := by
      simp only [within_cons, Block.stop]
      exact ⟨by omega, nofun⟩
    obtain ⟨vm₂, hrun₂, h₂⟩ := storesRecord fs hfs (h₁.poised hr) (hnext.symm ▸ hxs.congr (h₁.same hrecord)
      (h₁.same hbs.2)) hbs.2 (by omega) (by omega)
    refine ⟨vm₂, ?_, h₁.trans h₂⟩
    rw [storingAll, run_bind_ok (run_loadSlot (by omega)), run_bind_ok hrun₁]
    exact hrun₂

end

theorem stores_clearing (n : Nat) (hr : Poised slot vm)
    (hzero : wordOf vm.memory.byte zeroWord.toNat = Word.zero) :
    ∃ vm', (clearing n slot).run vm = .ok ((), vm') ∧
      Stores slot (List.replicate n Word.zero) vm vm' := by
  induction n generalizing vm with
  | zero => exact ⟨vm, rfl, .refl hr.sane⟩
  | succ n ih =>
    have hplace : zeroWord.toNat = 0 := rfl
    obtain ⟨vm₁, hrun₁, h₁⟩ := stores_word zeroWord hr (by omega)
    rw [hzero] at h₁
    have hstart := hr.start_le
    have hkept : wordOf vm₁.memory.byte zeroWord.toNat = Word.zero := by
      rw [← hzero]
      exact congrArg Word.ofBytes (view_congr fun i hi => h₁.byte_eq _ (by unfold Working; omega))
    obtain ⟨vm₂, hrun₂, h₂⟩ := ih (h₁.poised hr) hkept
    refine ⟨vm₂, ?_, h₁.trans h₂⟩
    rw [clearing, ← bind_assoc, run_bind_ok hrun₁]
    exact hrun₂

/-! ## Reading -/

theorem tame_readingWord {H : Nat} (form : Form) (w : UInt32) : Tame H (readingWord form w) := by
  cases form with
  | int width =>
    cases width with
    | w8 | w16 | w32 | w64 => exact ((tame_read _ _).map _).then fun _ => .pure trivial
    | w128 | w256 =>
      exact (tame_allocate _).bind fun _ hp => (tame_reverseBlock _ _ hp.1).then fun _ =>
        .pure trivial
  | address | bytes => exact (tame_unpackCopy w).map _
  | enum =>
    exact (tame_allocate _).bind fun _ hp => ((tame_read _ _).map _).then fun _ =>
      (tame_write _ (by omega)).then fun _ => .pure trivial
  | id => exact (tame_unpackCopy w).then fun _ => (tame_newCell _).map _
  | uid =>
    exact (tame_unpackCopy w).then fun _ => (tame_newCell _).then fun _ => (tame_newCell _).map _
  | bool | string | vector | struct => exact ((tame_read _ _).map _).then fun _ => .pure trivial

/-- The heap only grew, and of what lay below its end only what `P` allows can have changed. The host
and the place in the call data are as they were. -/
structure Alters (P : Nat → Prop) (vm vm' : Vm) : Prop where
  top_le : vm.top.toNat ≤ vm'.top.toNat
  byte_eq : ∀ i < vm.top.toNat, ¬ P i → vm'.memory.byte i = vm.memory.byte i
  host_eq : vm'.host = vm.host
  reader_eq : vm'.reader = vm.reader
  stop_eq : vm'.stop = vm.stop
  sane : vm'.Sane

section

variable {P Q : Nat → Prop} {vm vm₁ vm₂ : Vm}

theorem Alters.refl (hs : vm.Sane) : Alters P vm vm :=
  ⟨le_rfl, fun _ _ _ => rfl, rfl, rfl, rfl, hs⟩

theorem Alters.trans (h₁ : Alters P vm vm₁) (h₂ : Alters P vm₁ vm₂) : Alters P vm vm₂ where
  top_le := h₁.top_le.trans h₂.top_le
  byte_eq i hi h := (h₂.byte_eq i (hi.trans_le h₁.top_le) h).trans (h₁.byte_eq i hi h)
  host_eq := h₂.host_eq.trans h₁.host_eq
  reader_eq := h₂.reader_eq.trans h₁.reader_eq
  stop_eq := h₂.stop_eq.trans h₁.stop_eq
  sane := h₂.sane

/-- Changes at and above the end of the heap are none that count. -/
theorem Alters.mono (h : Alters P vm vm₁) (hPQ : ∀ i < vm.top.toNat, P i → Q i) : Alters Q vm vm₁ :=
  { h with byte_eq := fun i hi hQ => h.byte_eq i hi fun hP => hQ (hPQ i hi hP) }

theorem alters_of_becomes {n : Nat} {f : Nat → UInt8} (h : vm.Becomes n f vm₁)
    (hf : ∀ i < vm.top.toNat, ¬ P i → f i = vm.memory.byte i) : Alters P vm vm₁ where
  top_le := by rw [h.top_eq]; exact Nat.le_add_right _ _
  byte_eq i hi hP := by rw [h.byte_eq]; exact hf i hi hP
  host_eq := h.host_eq
  reader_eq := h.reader_eq
  stop_eq := h.stop_eq
  sane := h.sane

/-- Blocks apart from what may change keep their contents. -/
theorem Alters.same (h : Alters P vm vm₁) {lo hi : Nat} {bs : List Block} (hbs : Fresh lo hi bs)
    (htop : hi ≤ vm.top.toNat) (hP : ∀ i, lo ≤ i → i < hi → ¬ P i) :
    Same vm.memory.byte vm₁.memory.byte bs := by
  intro b hb i hstart hstop
  have := hbs.inside b hb
  exact (h.byte_eq i (by omega) (hP i (by omega) (by omega))).symm

end

theorem Alters.poised {P : Nat → Prop} {vm₁ : Vm} (h : Alters P vm vm₁) (hr : Poised slot vm)
    (hP : ∀ i < 64, ¬ P i) : Poised slot vm₁ where
  sane := h.sane
  one := by
    have hstart : 320 ≤ vm.top.toNat := hr.sane.start_le
    rw [← hr.one]
    exact number_congr (view_congr fun i hi => h.byte_eq _ (by omega) (hP _ (by omega)))
  start_le := hr.start_le
  le_top := hr.le_top.trans h.top_le

/-- The value was built on the heap, and the slot was moved past its words. -/
def Finds (form : Form) (x : form.Val) (slot : UInt32) (vm : Vm) (v : Value) (vm' : Vm) : Prop :=
  ∃ bs, form.Holds true vm'.memory.byte v x bs ∧ Fresh vm.top.toNat vm'.top.toNat bs ∧
    Alters (Working slot) vm vm' ∧ wordOf vm'.memory.byte slot.toNat =
      nextSlot^[(form.words x).length] (wordOf vm.memory.byte slot.toNat)

/-- A value whose words the guest sees along the slots is built. -/
def ReadsValue (form : Form) : Prop :=
  ∀ ⦃x : form.Val⦄ ⦃slot : UInt32⦄ ⦃vm : Vm⦄, form.flat = true → Poised slot vm → form.Narrow x →
    Loads vm.host (wordOf vm.memory.byte slot.toNat) (form.words x) →
    Tries (reading form slot) vm form.demand (Finds form x slot vm)

/-- Addresses that a walk uses which fills the record from `a` on. -/
def Filling (slot : UInt32) (a n : Nat) (i : Nat) : Prop := Working slot i ∨ a ≤ i ∧ i < a + n

/-- The parts of a record whose words the guest sees along the slots are built. -/
def ReadsRecord (fs : Forms) : Prop :=
  ∀ ⦃x : fs.Val⦄ ⦃rec slot offset : UInt32⦄ ⦃vm : Vm⦄, fs.flat = true → Poised slot vm →
    fs.Narrow x → Loads vm.host (wordOf vm.memory.byte slot.toNat) (fs.words x) →
    slot.toNat + 32 ≤ rec.toNat → rec.toNat + offset.toNat + fs.record ≤ vm.top.toNat →
    Tries (readingAll fs rec slot offset) vm fs.demand fun _ vm' => ∃ bs,
      fs.Holds true vm'.memory.byte (rec.toNat + offset.toNat) x bs ∧
      Fresh vm.top.toNat vm'.top.toNat bs ∧
      Alters (Filling slot (rec.toNat + offset.toNat) fs.record) vm vm' ∧
      wordOf vm'.memory.byte slot.toNat =
        nextSlot^[(fs.words x).length] (wordOf vm.memory.byte slot.toNat)

theorem reading_wide (form : Form) (slot : UInt32) :
    Gives (reading form slot) fun v => v.wide = form.wide := by
  by_cases hplain : ∀ fs, form ≠ .struct fs
  · intro vm v vm' h
    rw [reading_word hplain] at h
    obtain ⟨_, vm₁, -, h₁⟩ := run_bind_eq_ok.mp h
    obtain ⟨y, vm₂, hy, h₂⟩ := run_bind_eq_ok.mp h₁
    obtain ⟨_, vm₃, -, h₃⟩ := run_bind_eq_ok.mp h₂
    cases h₃
    exact readingWord_wide form slotData vm₁ v vm₂ hy
  · obtain ⟨fs, rfl⟩ := not_forall_not.1 hplain
    rw [reading_struct]
    exact .map fun _ => rfl

theorem readsValue_word (hplain : ∀ fs, form ≠ .struct fs) : ReadsValue form := by
  intro x slot vm hflat hr hnarrow hloads
  have hsingle := Form.single_of_flat hflat hplain
  have hsize : 320 ≤ vm.memory.size := hr.sane.start_le.trans hr.sane.top_le
  have hstart := hr.start_le
  have hle := hr.le_size
  have htop := hr.le_top
  have hslot : slotData.toNat = 64 := rfl
  rw [Form.words_single hsingle] at hloads
  obtain ⟨vm₁, hrun₁, hb₁⟩ := runs_storageLoad slot slotData hr.sane hle (by omega)
  rw [hloads.1, Form.toList_word hsingle] at hb₁
  have hlen : (form.encode x).length = 32 := by
    rw [← Form.toList_word hsingle]
    simp
  have h₁ : Alters (Working slot) vm vm₁ :=
    alters_of_becomes hb₁ fun i _ hi => patch_outside (by unfold Working at hi; omega)
  have hview : view vm₁.memory.byte 64 32 = form.encode x := by
    rw [hb₁.byte_eq, hslot]
    exact view_patch_of_length hlen
  rw [reading_word hplain]
  refine .becomes hrun₁ hb₁ ?_
  refine (tries_readingWord hsingle hb₁.sane hnarrow hview).bind (k := 0) fun v vm₂ hrun₂ hv => ?_
  obtain ⟨bs, hx, hgrows, hfresh⟩ := hv
  have hv₂ := ((tame_readingWord form slotData).spares hb₁.sane le_rfl hrun₂).2
  have h₂ : Alters (Working slot) vm₁ vm₂ := ⟨hv₂.top_le, fun i hi _ => (hv₂.byte_eq i hi).symm,
    hv₂.host_eq, hv₂.reader_eq, hv₂.stop_eq, hv₂.sane⟩
  have hr₂ : Poised slot vm₂ := (h₁.trans h₂).poised hr fun i hi => by unfold Working; omega
  obtain ⟨vm₃, hrun₃, hb₃⟩ := runs_stepSlot hr₂.sane hr₂.one (UInt32.le_iff_toNat_le.2 hr₂.start_le)
    hr₂.le_size
  have h₃ : Alters (Working slot) vm₂ vm₃ :=
    alters_of_becomes hb₃ fun i _ hi => patch_outside (by unfold Working at hi; simp; omega)
  have htop₁ := hb₁.top_eq
  have htop₃ := hb₃.top_eq
  refine .becomes hrun₃ hb₃ (.pure ⟨bs, ?_, ?_, (h₁.trans h₂).trans h₃, ?_⟩)
  · refine hx.congr (h₃.same hfresh le_rfl fun i hi hlt => ?_)
    unfold Working
    omega
  · exact hfresh.mono (by omega) (by omega)
  · rw [hb₃.byte_eq, wordOf_patch, Form.words_single hsingle]
    refine congrArg nextSlot (congrArg Word.ofBytes ?_)
    rw [view_congr fun i hi => (hgrows.byte_eq _ (by omega) (.inr (Nat.zero_le _))).symm, hb₁.byte_eq,
      view_patch_outside (.inr (by omega))]

/-- A part was built and put into a record, then the parts behind it were. -/
theorem holds_part {fs : Forms} {x : form.Val} {y : fs.Val} {v : Value} {here rest : List Block}
    {a : Nat} {vm₁ vm₂ vm₃ : Vm} (hx : form.Holds true vm₁.memory.byte v x here)
    (hwide : v.wide = form.wide) (h₁ : Alters (Working slot) vm vm₁)
    (hhere : Fresh vm.top.toNat vm₁.top.toNat here)
    (h₂ : vm₁.Becomes 0 (patch vm₁.memory.byte a (slotBytes v)) vm₂)
    (hxs : fs.Holds true vm₃.memory.byte (a + form.place false) y rest)
    (h₃ : Alters (Filling slot (a + form.place false) fs.record) vm₂ vm₃)
    (hrest : Fresh vm₂.top.toNat vm₃.top.toNat rest) (hslot : slot.toNat + 32 ≤ a)
    (hstart : 320 ≤ slot.toNat) (hfit : a + (form.place false + fs.record) ≤ vm.top.toNat) :
    (Forms.cons false form fs).Holds true vm₃.memory.byte a (x, y) (here ++ rest) ∧
      Fresh vm.top.toNat vm₃.top.toNat (here ++ rest) ∧
      Alters (Filling slot a (form.place false + fs.record)) vm vm₃ := by
  have hplace : form.place false = slotSize v.wide := by rw [hwide]; rfl
  have hlen := length_slotBytes v
  have htop₁ := h₁.top_le
  have htop₂ := h₂.top_eq
  have htop₃ := h₃.top_le
  have hput : Alters (Filling slot a (form.place false + fs.record)) vm₁ vm₂ :=
    alters_of_becomes h₂ fun i _ hi => patch_outside (by unfold Filling at hi; omega)
  have hlast : Alters (Filling slot a (form.place false + fs.record)) vm₂ vm₃ :=
    h₃.mono fun i _ hi => hi.imp_right fun h => by omega
  have hkept := (hput.trans hlast).same hhere le_rfl fun i hi hlt => by
    unfold Filling Working
    omega
  refine ⟨⟨here, rest, ?_, hxs, rfl⟩, hhere.append (by rwa [htop₂] at hrest) htop₁ (by omega),
    (h₁.mono fun i _ hi => .inl hi).trans (hput.trans hlast)⟩
  rw [if_neg Bool.false_ne_true, ← hwide]
  have hcell : Same vm₂.memory.byte vm₃.memory.byte [⟨a, slotSize v.wide⟩] := by
    intro b hb i hlo hhi
    rw [List.mem_singleton] at hb
    subst hb
    simp only [Block.stop] at hlo hhi
    exact (h₃.byte_eq i (by omega) (by unfold Filling Working; omega)).symm
  rw [← hcell.slotAt_eq v.wide le_rfl le_rfl, h₂.byte_eq, slotAt_patch]
  exact hx.congr hkept

/-- A new record is filled. -/
theorem ReadsRecord.tries {fs : Forms} (hall : ReadsRecord fs) {x : fs.Val}
    (hflat : fs.flat = true) (hr : Poised slot vm) (hnarrow : (Form.struct fs).Narrow x)
    (hloads : Loads vm.host (wordOf vm.memory.byte slot.toNat) (fs.words x)) :
    Tries (readingRecord fs slot) vm (fs.record + fs.demand) fun p =>
      Finds (.struct fs) x slot vm (.i32 p) := by
  rw [Form.Narrow] at hnarrow
  have hrecord : (UInt32.ofNat fs.record).toNat = fs.record := toNat_ofNat_of_lt hnarrow.1
  have halloc := tries_allocate hr.sane (UInt32.ofNat fs.record)
  rw [hrecord] at halloc
  refine halloc.bind fun rec vm₁ hrun _ => ?_
  obtain ⟨rfl, hb⟩ := allocate_becomes hr.sane hrun
  have htop : vm₁.top.toNat = vm.top.toNat + (UInt32.ofNat fs.record).toNat := hb.top_eq
  have h₁ : Alters (Working slot) vm vm₁ := alters_of_becomes hb fun _ _ _ => rfl
  have h0 : vm.top.toNat + (0 : UInt32).toNat = vm.top.toNat := Nat.add_zero _
  rw [← hb.byte_eq, ← hb.host_eq] at hloads
  have hr₁ : Poised slot vm₁ := h₁.poised hr fun i hi => by
    have := hr.start_le
    unfold Working
    omega
  refine (hall hflat hr₁ hnarrow.2 hloads hr.le_top (by omega)).bind (k := 0)
    fun _ vm₂ _ hall => .pure ?_
  obtain ⟨bs, hx, hfresh, h₂, hslot⟩ := hall
  rw [h0] at hx h₂
  refine ⟨⟨vm.top.toNat, fs.record⟩ :: bs, ⟨vm.top, bs, rfl, hx, rfl⟩, ?_, ?_, ?_⟩
  · exact hfresh.cons le_rfl (by simp only [Block.stop]; omega) h₂.top_le
  · have hall : Alters (Filling slot vm.top.toNat fs.record) vm vm₂ :=
      (h₁.mono fun _ _ hi => .inl hi).trans h₂
    exact hall.mono fun i hi h => h.resolve_right (by omega)
  · rw [hslot, hb.byte_eq]
    rfl

mutual

theorem readsValue : ∀ form : Form, ReadsValue form
  | .struct fields => by
    intro x slot vm hflat hr hnarrow hloads
    rw [reading_struct, Form.demand]
    exact .map ((readsRecord fields).tries hflat hr hnarrow hloads)
  | .bool | .int _ | .address | .enum _ | .string | .bytes _ | .uid | .id | .vector _ =>
    readsValue_word nofun

theorem readsRecord : ∀ fs : Forms, ReadsRecord fs
  | .nil => by
    intro x rec slot offset vm _ hr _ _ _ _
    rw [readingAll]
    exact .pure ⟨[], rfl, fresh_nil, .refl hr.sane, rfl⟩
  | .cons boxed form fs => by
    intro x rec slot offset vm hflat hr hnarrow hloads hrec hfit
    simp only [Forms.flat, Bool.and_eq_true, Bool.not_eq_true'] at hflat
    obtain ⟨⟨rfl, hform⟩, hfs⟩ := hflat
    rw [Forms.Narrow] at hnarrow
    rw [Forms.words, loads_append] at hloads
    have hstart := hr.start_le
    have hnext := toNat_place form false (hfit.trans_lt vm.top.toNat_lt)
    rw [readingAll, Forms.demand]
    refine (readsValue form hform hr hnarrow.1 hloads.1).bind fun v vm₁ hrun₁ hv => ?_
    obtain ⟨here, hx, hhere, h₁, hslot₁⟩ := hv
    have hwide : v.wide = form.wide := reading_wide form slot _ _ _ hrun₁
    have hplace : form.place false = slotSize v.wide := by rw [hwide]; rfl
    have hlen := length_slotBytes v
    have htop₁ := h₁.top_le
    have hfit' := hfit
    rw [Forms.record] at hfit'
    rw [← hwide, storeSlot_eq]
    refine .write_step h₁.sane (by omega) fun vm₂ _ hb₂ => ?_
    have htop₂ := hb₂.top_eq
    have hput : Alters (Filling slot (rec.toNat + offset.toNat) (slotSize v.wide)) vm₁ vm₂ :=
      alters_of_becomes hb₂ fun i _ hi => patch_outside (by unfold Filling at hi; omega)
    have hr₁ := h₁.poised hr fun i hi => by unfold Working; omega
    have hr₂ := hput.poised hr₁ fun i hi => by unfold Filling Working; omega
    have hslot₂ : wordOf vm₂.memory.byte slot.toNat =
        nextSlot^[(form.words x.1).length] (wordOf vm.memory.byte slot.toNat) := by
      rw [← hslot₁, hb₂.byte_eq, wordOf_patch_outside (.inl (by omega))]
    refine (readsRecord fs hfs hr₂ hnarrow.2 ?_ hrec ?_).mono fun _ vm₃ _ hall => ?_
    · rw [hslot₂, hput.host_eq, h₁.host_eq]
      exact hloads.2
    · rw [show (form.slotWord : UInt32) = UInt32.ofNat (form.place false) from rfl, hnext]
      omega
    · obtain ⟨rest, hxs, hrest, h₃, hslot₃⟩ := hall
      rw [show (form.slotWord : UInt32) = UInt32.ofNat (form.place false) from rfl, hnext] at hxs h₃
      obtain ⟨hholds, hfresh, halters⟩ :=
        holds_part hx hwide h₁ hhere hb₂ hxs h₃ hrest (by omega) hstart (by omega)
      refine ⟨here ++ rest, hholds, hfresh, halters, ?_⟩
      rw [hslot₃, hslot₂, Forms.words, List.length_append, Nat.add_comm, Function.iterate_add_apply]

end

end Storage

end MoveCodec
