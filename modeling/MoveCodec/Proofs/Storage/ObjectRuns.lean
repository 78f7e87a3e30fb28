import MoveCodec.Proofs.Storage.LayoutWords
import MoveCodec.Proofs.Storage.SlotFunctions

/-!
# Runs of storage code

Saving and deleting an object commit a row of words from the slot of the object on. Reading an object
whose words are there builds a record of the same value.
-/
namespace MoveCodec.Storage

open Wasm Machine Machine.Compute Prelude Codec Bytes

variable {o : Options} {vm : Vm}

/-! ## The slot of an object -/

/-- The slot of an object was put into a new buffer. -/
structure Positioned (o : Options) (s : Slot) (vm vm' : Vm) : Prop where
  becomes : vm.Becomes 32 vm'.memory.byte vm'
  equipped : Equipped o vm'
  slot_eq : wordOf vm'.memory.byte vm.top.toNat = s
  byte_eq : ∀ i, 320 ≤ i → i < vm.top.toNat → vm'.memory.byte i = vm.memory.byte i

section

variable {o : Options} {s : Slot} {vm vm' : Vm} {owner id : UInt32}

theorem Positioned.poised (h : Positioned o s vm vm') (hs : vm.Sane) : Poised vm.top vm' :=
  ⟨h.equipped.sane, h.equipped.fitted.one, hs.start_le, h.becomes.top_eq.ge⟩

/-- Blocks on the heap keep their contents. -/
theorem Positioned.same (h : Positioned o s vm vm') {bs : List Block}
    (hbs : Within 320 vm.top.toNat bs) : Same vm.memory.byte vm'.memory.byte bs := by
  intro b hb i hstart hstop
  have := hbs b hb
  exact (h.byte_eq i (by omega) (by omega)).symm

theorem tries_position (h : Equipped o vm) (howner : owner.toNat + 32 ≤ vm.memory.size)
    (hid : 320 ≤ id.toNat) (hfit : id.toNat + 32 ≤ vm.memory.size) :
    Tries (do
        Compute.deriveSlot owner id
        slotCopy) vm 32 fun slot vm' => slot = vm.top ∧
      Positioned o (objectSlot (baseSlot o.objectsSlot) (wordOf vm.memory.byte owner.toNat)
        (wordOf vm.memory.byte id.toNat)) vm vm' := by
  have hstart : 320 ≤ vm.top.toNat := h.sane.start_le
  have h32 : (32 : UInt32).toNat = 32 := rfl
  have hplace : derivedSlot.toNat = 128 := rfl
  have hbase : wordOf vm.memory.byte 96 = baseSlot o.objectsSlot := h.fitted.base
  obtain ⟨vm₁, hrun₁, hb₁⟩ := runs_deriveSlot h.sane howner (UInt32.le_iff_toNat_le.2 hid) hfit
  rw [hbase] at hb₁
  have h₁ : Equipped o vm₁ := h.becomes hb₁ fun i hi => by
    unfold Loose at hi
    exact derivation_outside _ _ _ _ (by omega) (by omega)
  have htop₁ : vm₁.top = vm.top := UInt32.toNat_inj.1 hb₁.top_eq
  refine .becomes hrun₁ hb₁ ((tries_allocate h₁.sane 32).bind (k := 0) fun slot vm₂ hrun₂ _ => ?_)
  obtain ⟨rfl, hb₂⟩ := allocate_becomes h₁.sane hrun₂
  have htop₂ := hb₂.top_eq
  have hsize₂ := hb₂.sane.top_le
  have hcopy : Runs (Compute.copy vm₁.top derivedSlot 32) vm₂ () 0 _ :=
    runs_copy hb₂.sane (by rw [htop₁] at htop₂; omega) (by omega)
  obtain ⟨vm₃, hrun₃, hb₃⟩ := hcopy
  have hb : vm.Becomes 32 _ vm₃ := (hb₁.trans hb₂).trans hb₃
  have hview : view vm₂.memory.byte derivedSlot.toNat (32 : UInt32).toNat =
      (objectSlot (baseSlot o.objectsSlot) (wordOf vm.memory.byte owner.toNat)
        (wordOf vm.memory.byte id.toNat)).toList := by
    rw [hb₂.byte_eq, hb₁.byte_eq]
    exact view_patch_of_length (by simp)
  rw [hview, htop₁] at hb hb₃
  refine .becomes hrun₃ hb₃ (.pure ⟨htop₁, hb.byte_eq ▸ hb, ?_, ?_, fun i hlo hhi => ?_⟩)
  · refine (h₁.becomes hb₂ fun _ _ => rfl).becomes hb₃ fun i hi => patch_outside (.inl ?_)
    unfold Loose at hi
    omega
  · rw [hb.byte_eq]
    exact wordOf_patch _ _ _
  · rw [hb.byte_eq, patch_outside (.inl hhi), hb₂.byte_eq, hb₁.byte_eq]
    exact derivation_outside _ _ _ _ (by omega) (by omega)

end

/-! ## Writing -/

/-- The record at `rec` on the heap holds the value, and there is a word for an owner at `owner`. -/
structure Presents (o : Options) (form : Form) (x : form.Val) (rec owner : UInt32) (vm : Vm) :
    Prop where
  equipped : Equipped o vm
  record : ∃ bs, form.Holds true vm.memory.byte (.i32 rec) x bs ∧
    Within heapStart.toNat vm.top.toNat bs
  owner_le : owner.toNat + 32 ≤ vm.memory.size

theorem Presents.narrow {form : Form} {x : form.Val} {rec owner : UInt32}
    (h : Presents o form x rec owner vm) : form.Narrow x := by
  obtain ⟨bs, hx, hbs⟩ := h.record
  exact hx.narrow vm.top.toNat_lt hbs

/-- The words were committed along the slots from `s` on; of the heap a buffer was taken. -/
structure Files (o : Options) (s : Slot) (ws : List Word) (vm vm' : Vm) : Prop where
  becomes : Vm.Becomes { vm with host := (caching vm.host s ws).flush } 32 vm'.memory.byte vm'
  equipped : Equipped o vm'
  byte_eq : ∀ i, 320 ≤ i → i < vm.top.toNat → vm'.memory.byte i = vm.memory.byte i

section

variable {o : Options} {s : Slot} {ws : List Word} {vm vm' : Vm} {owner rec id : UInt32}

theorem Files.commits (h : Files o s ws vm vm') : Commits s ws vm.host vm'.host := by
  have hhost : vm'.host = (caching vm.host s ws).flush := h.becomes.host_eq
  rw [hhost]
  exact commits_flush vm.host s ws

theorem tries_filing {walk : UInt32 → Compute Unit} (h : Equipped o vm)
    (howner : owner.toNat + 32 ≤ vm.memory.size) (hid : 320 ≤ id.toNat)
    (hfit : id.toNat + 32 ≤ vm.memory.size)
    (hs : s = objectSlot (baseSlot o.objectsSlot) (wordOf vm.memory.byte owner.toNat)
      (wordOf vm.memory.byte id.toNat))
    (hwalk : ∀ vm₁, Positioned o s vm vm₁ →
      ∃ vm₂, (walk vm.top).run vm₁ = .ok ((), vm₂) ∧ Stores vm.top ws vm₁ vm₂) :
    Tries (do
        Compute.deriveSlot owner id
        let slot ← slotCopy
        walk slot
        host .storageFlush [1]) vm 32 fun _ vm' => Files o s ws vm vm' := by
  rw [← bind_assoc]
  refine (tries_position h howner hid hfit).bind (k := 0) fun slot vm₁ _ hslot => ?_
  obtain ⟨rfl, hpos⟩ := hslot
  rw [← hs] at hpos
  obtain ⟨vm₂, hrun₂, hstores⟩ := hwalk vm₁ hpos
  have hb := hstores.becomes
  have hhost : vm₂.host = caching vm.host s ws := by
    rw [hb.host_eq, hpos.slot_eq, hpos.becomes.host_eq]
  refine .then (.inl ⟨(), vm₂, hrun₂, hb.top_eq, hb.space_le, rfl, rfl⟩)
    (.inl ⟨(), _, run_storageFlush 1, rfl, .inl le_rfl, ?_, ?_, fun i hlo hhi => ?_⟩)
  · rw [← hhost]
    exact (hpos.becomes.withHost _).trans (hb.withHost _)
  · refine ⟨hb.sane.withHost _, hpos.equipped.fitted.congr fun i hi => hstores.byte_eq i ?_⟩
    have hstart : 320 ≤ vm.top.toNat := h.sane.start_le
    unfold Loose at hi
    unfold Working
    omega
  · rw [← hpos.byte_eq i hlo hhi]
    refine hstores.byte_eq i ?_
    unfold Working
    omega

/-- The address of the identifier of the object in a record. -/
theorem run_identifierOf {rest : Forms} {x : (Forms.cons false .uid rest).Val} {bs : List Block}
    (hx : (Form.struct (.cons false .uid rest)).Holds true vm.memory.byte (.i32 rec) x bs)
    (hbs : Within 320 vm.top.toNat bs) (hs : vm.Sane) :
    ∃ id : UInt32, (identifierOf rec).run vm = .ok (id, vm) ∧ 320 ≤ id.toNat ∧
      id.toNat + 32 ≤ vm.top.toNat ∧ wordOf vm.memory.byte id.toNat = x.1 := by
  obtain ⟨p, bs', hp, ⟨here, bs'', hid, -, rfl⟩, rfl⟩ := hx
  cases hp
  rw [if_neg Bool.false_ne_true] at hid
  obtain ⟨q, rest, hq, ⟨r, rest', hr, ⟨id, hid, hview, rfl⟩, rfl⟩, rfl⟩ := hid
  have hlen : (Vector.toList x.1).length = 32 := by simp
  have hrecord : 4 ≤ (Forms.cons false .uid ‹Forms›).record := by
    rw [Forms.record]
    exact Nat.le_add_right _ _
  rw [hlen] at hview hbs
  simp only [within_cons, List.cons_append, List.nil_append, Block.stop, slotSize,
    Bool.false_eq_true, if_false] at hbs
  have hle := hs.top_le
  refine ⟨id, ?_, by omega, by omega, ?_⟩
  · rw [identifierOf, run_bind_ok (run_loadCell (by omega) hq),
      run_bind_ok (run_loadCell (by omega) hr), run_loadCell (by omega) hid]
  · rw [wordOf, hview, Word.ofBytes_toList]

end

section

variable {o : Options} {vm : Vm} {owner rec id : UInt32} {rest : Forms}
  {x : (Forms.cons false .uid rest).Val}

theorem tries_saving (h : Presents o (.struct (.cons false .uid rest)) x rec owner vm)
    (hflat : (Forms.cons false .uid rest).flat = true) :
    Tries (saving (.cons false .uid rest) rec owner) vm 32 fun _ vm' =>
      Files o (objectSlot (baseSlot o.objectsSlot) (wordOf vm.memory.byte owner.toNat) x.1)
        ((Forms.cons false .uid rest).words x) vm vm' := by
  obtain ⟨h, ⟨bs, hx, hbs⟩, howner⟩ := h
  obtain ⟨id, hrun, hlo, hhi, hword⟩ := run_identifierOf hx hbs h.sane
  have hle := h.sane.top_le
  refine .step hrun rfl le_rfl
    (tries_filing h howner hlo (by omega) (by rw [hword]) fun vm₁ hpos => ?_)
  have hstores := storesValue (.struct (.cons false .uid rest)) hflat (hpos.poised h.sane)
    (hx.congr (hpos.same hbs)) hbs
  rwa [storing, Form.words] at hstores

theorem tries_deleting (h : Presents o (.struct (.cons false .uid rest)) x rec owner vm) (n : Nat) :
    Tries (deleting n rec owner) vm 32 fun _ vm' =>
      Files o (objectSlot (baseSlot o.objectsSlot) (wordOf vm.memory.byte owner.toNat) x.1)
        (List.replicate n Word.zero) vm vm' := by
  obtain ⟨h, ⟨bs, hx, hbs⟩, howner⟩ := h
  obtain ⟨id, hrun, hlo, hhi, hword⟩ := run_identifierOf hx hbs h.sane
  have hle := h.sane.top_le
  refine .step hrun rfl le_rfl
    (tries_filing h howner hlo (by omega) (by rw [hword]) fun vm₁ hpos => ?_)
  exact stores_clearing n (hpos.poised h.sane) hpos.equipped.fitted.zero

/-! ## Reading -/

/-- The record `p` with the value was built on the heap. What lay there before is as it was, and so is
the host. -/
structure Retrieves (o : Options) (form : Form) (x : form.Val) (p : UInt32) (vm vm' : Vm) : Prop where
  holds : ∃ bs, form.Holds true vm'.memory.byte (.i32 p) x bs ∧
    Fresh vm.top.toNat vm'.top.toNat bs
  equipped : Equipped o vm'
  host_eq : vm'.host = vm.host
  byte_eq : ∀ i, 320 ≤ i → i < vm.top.toNat → vm'.memory.byte i = vm.memory.byte i

/-- Reading finds an object whose words are there. -/
theorem tries_retrieving (h : Equipped o vm) (howner : owner.toNat + 32 ≤ vm.memory.size)
    (hid : 320 ≤ id.toNat) (hfit : id.toNat + 32 ≤ vm.top.toNat)
    (hword : wordOf vm.memory.byte id.toNat = x.1)
    (hflat : (Forms.cons false .uid rest).flat = true)
    (hnarrow : (Form.struct (.cons false .uid rest)).Narrow x)
    (hloads : Loads vm.host (objectSlot (baseSlot o.objectsSlot)
      (wordOf vm.memory.byte owner.toNat) x.1) ((Forms.cons false .uid rest).words x)) :
    Tries (retrieving (.cons false .uid rest) owner id) vm
      (32 + (Form.struct (.cons false .uid rest)).demand) fun p vm' =>
        Retrieves o (.struct (.cons false .uid rest)) x p vm vm' := by
  have hle := h.sane.top_le
  have hstart : 320 ≤ vm.top.toNat := h.sane.start_le
  rw [retrieving, ← bind_assoc]
  refine (tries_position h howner hid (by omega)).bind fun slot vm₁ _ hslot => ?_
  obtain ⟨rfl, hpos⟩ := hslot
  have htop₁ := hpos.becomes.top_eq
  rw [hword] at hpos
  rw [← hpos.becomes.host_eq, ← hpos.slot_eq] at hloads
  refine ((readsRecord _).tries hflat (hpos.poised h.sane) hnarrow hloads).bind (k := 0)
    fun p vm₂ _ hfinds => ?_
  obtain ⟨bs, hx, hfresh, halters, -⟩ := hfinds
  have htop₂ := halters.top_le
  have hbyte (i : Nat) (hlo : 320 ≤ i) (hhi : i < vm.top.toNat) :
      vm₂.memory.byte i = vm.memory.byte i := by
    rw [← hpos.byte_eq i hlo hhi]
    exact halters.byte_eq i (by omega) (by unfold Working; omega)
  have hsane := halters.sane
  have hle₂ := hsane.top_le
  obtain ⟨a, hrun, -, hhi, ha⟩ := run_identifierOf hx
    (fun b hb => (hfresh.mono (by omega) le_rfl).inside b hb) hsane
  refine .step hrun rfl le_rfl (.step (run_sameWord (by omega) (by omega)) rfl le_rfl ?_)
  have hsame : wordOf vm₂.memory.byte a.toNat = wordOf vm₂.memory.byte id.toNat := by
    rw [ha, ← hword]
    exact congrArg Word.ofBytes (view_congr fun i hi => (hbyte _ (by omega) (by omega)).symm)
  have hpass : (trapWhen !decide (wordOf vm₂.memory.byte a.toNat =
      wordOf vm₂.memory.byte id.toNat)).run vm₂ = .ok ((), vm₂) := by
    simp [trapWhen, hsame]
  refine .step hpass rfl le_rfl (.pure ⟨⟨bs, hx, hfresh.mono (by omega) le_rfl⟩, ⟨hsane, ?_⟩, ?_,
    hbyte⟩)
  · refine hpos.equipped.fitted.congr fun i hi => ?_
    unfold Loose at hi
    exact halters.byte_eq i (by omega) (by unfold Working; omega)
  · rw [halters.host_eq, hpos.becomes.host_eq]

end

/-! ## A sample -/

/-- The state with `bs` as all that is on the heap. -/
def furnish (vm : Vm) (bs : Bytes) : Vm :=
  { vm with memory := vm.memory.splice heapStart.toNat bs, top := heapStart + UInt32.ofNat bs.length }

theorem host_furnish (vm : Vm) (bs : Bytes) : (furnish vm bs).host = vm.host := rfl

section

variable {o : Options} {vm : Vm} {bs : Bytes} (h : Equipped o vm) (hlen : bs.length ≤ 65000)

include hlen in
theorem toNat_top_furnish : (furnish vm bs).top.toNat = 320 + bs.length := by
  have hlength : (UInt32.ofNat bs.length).toNat = bs.length :=
    UInt32.toNat_ofNat_of_lt (hlen.trans_lt (by decide))
  have hstart : heapStart.toNat = 320 := rfl
  rw [furnish, UInt32.toNat_add, hlength, hstart]
  omega

include h hlen

theorem byte_furnish : (furnish vm bs).memory.byte = patch vm.memory.byte 320 bs := by
  have hsize := h.size_le
  have hstart : heapStart.toNat = 320 := rfl
  exact vm.memory.byte_splice_eq_patch (by omega)

theorem equipped_furnish : Equipped o (furnish vm bs) := by
  have htop : (furnish vm bs).top.toNat = 320 + bs.length := toNat_top_furnish hlen
  have hsize := h.size_le
  refine ⟨⟨?_, ?_, by simpa [furnish] using h.sane.pages_le, by simpa [furnish] using h.sane.limit_le⟩, ?_⟩
  · rw [UInt32.le_iff_toNat_le, htop]
    exact Nat.le_add_right _ _
  · rw [htop, furnish, Memory.size_splice]
    omega
  · rw [byte_furnish h hlen]
    exact h.fitted.patch fun i hi _ => .inr (.inr (by omega))

end

/-- Storage code does not depend on what is in storage. -/
theorem Equipped.withHost (h : Equipped o vm) (x : Host) : Equipped o { vm with host := x } :=
  ⟨h.sane.withHost x, h.fitted⟩

namespace Purse

/-- The forms of the fields of a purse behind its identifier. -/
def contents : Forms :=
  .cons false (.int .w64) (.cons false (.struct (.cons false (.enum 2) (.cons false .address .nil)))
    (.cons false (.int .w128) .nil))

theorem fieldForms :
    FieldForms Codec.Purse.registry (.struct Codec.Purse.purse.id []) (.cons false .uid contents) := by
  have hmark : Registry.instantiate Codec.Purse.mark [] = .ok Codec.Purse.mark.fields := rfl
  exact ⟨Codec.Purse.purse.fields, by decide,
    .cons (.uid (d := Codec.Purse.uniqueIdentifier) (by decide) rfl)
    (.cons (.int _) (.cons (.struct (d := Codec.Purse.mark) (by decide) rfl hmark
      (.cons (.enum (d := Codec.Purse.kind) (by decide) rfl) (.cons .address .nil))) (.cons (.int _) .nil)))⟩

theorem eq_contents {rest : Forms}
    (h : FieldForms Codec.Purse.registry (.struct Codec.Purse.purse.id []) (.cons false .uid rest)) :
    rest = contents := by
  obtain ⟨fields, hfields, hforms⟩ := h
  obtain ⟨fields', hfields', hforms'⟩ := fieldForms
  cases hfields.symm.trans hfields'
  cases hforms.unique hforms'
  rfl

def ident : Word := Vector.replicate 32 5

/-- A purse with 7 coins. -/
def value : (Forms.cons false .uid contents).Val :=
  (ident, (7 : BitVec 64), ((1 : Fin 2), Vector.replicate 20 3, ()), (9 : BitVec 128), ())

theorem length_cells {cells : List Cell}
    (h : Codec.Purse.registry.storageLayout Codec.Purse.purse.id [] = .ok cells) :
    cells.length = 5 := by
  have hlength : (Codec.Purse.registry.storageLayout Codec.Purse.purse.id []).map List.length =
      .ok 5 := by
    decide
  rw [h] at hlength
  exact Except.ok.inj hlength

theorem words_value : (Forms.cons false .uid contents).words value =
    [ident, .ofNat 7, .ofNat 1, ownerKey (Vector.replicate 20 3), .ofNat 9] := by
  decide

/-- The purse in memory. -/
def image : Bytes :=
  ofNatLE 4 340 ++ ofNatLE 8 7 ++ ofNatLE 4 380 ++ ofNatLE 4 424 ++
    ofNatLE 4 344 ++ ofNatLE 4 348 ++ ident.toList ++
    ofNatLE 4 388 ++ ofNatLE 4 392 ++ ofNatLE 4 1 ++
    (List.replicate 12 0 ++ List.replicate 20 3) ++ ofNatLE 16 9

theorem length_image : image.length = 120 := by decide

theorem presents (h : Equipped o vm) {owner : UInt32} (howner : owner.toNat < 65504) :
    Presents o (.struct (.cons false .uid contents)) value heapStart owner (furnish vm image) := by
  have hlen := length_image
  have hequipped : Equipped o (furnish vm image) := equipped_furnish h (by omega)
  have hsize := hequipped.size_le
  have htop : (furnish vm image).top.toNat = 320 + image.length := toNat_top_furnish (by omega)
  let blocks : List Block :=
    [⟨320, 20⟩, ⟨340, 4⟩, ⟨344, 4⟩, ⟨348, 32⟩, ⟨380, 8⟩, ⟨388, 4⟩, ⟨392, 32⟩, ⟨424, 16⟩]
  have hblocks : Within 320 440 blocks := by simp [blocks, Within, Block.stop]
  refine ⟨hequipped, ⟨blocks, ?_, ?_⟩, by omega⟩
  · have hholds : (Form.struct (.cons false .uid contents)).Holds true (patch (fun _ => 0) 320 image)
        (.i32 heapStart) value blocks :=
      ⟨320, _, rfl, ⟨_, _, ⟨340, _, by decide, ⟨344, _, by decide,
        ⟨348, by decide, by decide, rfl⟩, rfl⟩, rfl⟩,
        ⟨[], _, ⟨by decide, rfl⟩, ⟨_, _, ⟨380, _, by decide,
          ⟨_, _, ⟨388, _, by decide, ⟨by decide, by decide, rfl⟩, rfl⟩,
            ⟨_, _, ⟨392, by decide, by decide, rfl⟩, rfl, rfl⟩, rfl⟩, rfl⟩,
          ⟨_, _, ⟨424, by decide, by decide, rfl⟩, rfl, rfl⟩, rfl⟩, rfl⟩, rfl⟩, rfl⟩
    refine hholds.congr fun b hb i hlo hhi => ?_
    have := hblocks b hb
    rw [byte_furnish h (by omega), patch_inside (by omega) (by omega), patch_inside (by omega) (by omega)]
  · rw [htop, hlen]
    exact hblocks

theorem wordOf_ident (h : Equipped o vm) : wordOf (furnish vm image).memory.byte 348 = ident := by
  have hlen := length_image
  have hview : view (furnish vm image).memory.byte 348 32 = view (patch (fun _ => 0) 320 image) 348 32 := by
    refine view_congr fun i hi => ?_
    rw [byte_furnish h (by omega), patch_inside (by omega) (by omega), patch_inside (by omega) (by omega)]
  rw [wordOf, hview]
  decide

/-- There is space for a buffer and for another purse. -/
theorem le_space (h : Equipped o vm) (hpages : vm.memory.pages.size ≤ 65535) {n : Nat}
    (hn : n ≤ 65000) : (furnish vm image).top.toNat + n ≤ (furnish vm image).space := by
  have hsize : 65536 ≤ vm.memory.pages.size * 65536 := h.size_le
  have hlimit := h.sane.pages_le
  have hspace : (furnish vm image).space = min vm.memory.limit 65535 * 65536 := by
    simp [Vm.space, furnish, hpages]
  have hlen := length_image
  have htop : (furnish vm image).top.toNat = 320 + image.length := toNat_top_furnish (by omega)
  omega

end Purse

end MoveCodec.Storage
