import MoveCodec.Proofs.Storage.WordCode

/-!
# What storage code does

Saving, reading and deleting of objects as computations by recursion on the form of the type, and
the proof that the code does what these say, given that the functions it calls do. A word goes
through a fixed place in memory, and the slot is kept in a buffer that is moved on word by word.
-/
namespace MoveCodec.Storage

open Wasm Wasm.Emit Machine Machine.Compute Prelude Codec
open List hiding rec

variable {form : Form} {inner x : UInt32} {rest : Code} {β : Type} {final : β × Vm → Exit → Prop}
  {fs : Forms} {vm : Vm}

/-! ## Fields -/

mutual

/-- Writes a value to the slot at `slot` and those behind it, and moves on past them. -/
def storing : (form : Form) → (v : Value) → (slot : UInt32) → Compute Unit
  | .struct fields, v, slot => storingAll fields v.word slot 0
  | form, v, slot => do
    storingWord form v slotData
    host .storageCache [slot, slotData]
    Compute.stepSlot slot

/-- Writes the parts of the record `rec` from `offset` on. -/
def storingAll : (fs : Forms) → (rec slot offset : UInt32) → Compute Unit
  | .nil, _, _, _ => pure ()
  | .cons _ f fs, rec, slot, offset => do
    let x ← loadSlot f.wide rec offset
    storing f x slot
    storingAll fs rec slot (offset + f.slotWord)

end

mutual

/-- Reads a value from the slot at `slot` and those behind it, and moves on past them. -/
def reading : (form : Form) → (slot : UInt32) → Compute Value
  | .struct fields, slot => do
    let rec' ← allocate (UInt32.ofNat fields.record)
    readingAll fields rec' slot 0
    return .i32 rec'
  | form, slot => do
    host .storageLoad [slot, slotData]
    let x ← readingWord form slotData
    Compute.stepSlot slot
    return x

/-- Reads the parts of the record `rec` from `offset` on. -/
def readingAll : (fs : Forms) → (rec slot offset : UInt32) → Compute Unit
  | .nil, _, _, _ => pure ()
  | .cons _ f fs, rec, slot, offset => do
    let x ← reading f slot
    storeSlot f.wide rec offset x
    readingAll fs rec slot (offset + f.slotWord)

end

theorem storing_word (h : ∀ fs, form ≠ .struct fs) (v : Value) (slot : UInt32) :
    storing form v slot = (do
      storingWord form v slotData
      host .storageCache [slot, slotData]
      Compute.stepSlot slot) := by
  cases form with
  | struct fs => exact absurd rfl (h fs)
  | _ =>
    rw [storing]
    nofun

theorem reading_word (h : ∀ fs, form ≠ .struct fs) (slot : UInt32) :
    reading form slot = (do
      host .storageLoad [slot, slotData]
      let x ← readingWord form slotData
      Compute.stepSlot slot
      return x) := by
  cases form with
  | struct fs => exact absurd rfl (h fs)
  | _ =>
    rw [reading]
    nofun

def readingRecord (fs : Forms) (slot : UInt32) : Compute UInt32 := do
  let rec' ← allocate (UInt32.ofNat fs.record)
  readingAll fs rec' slot 0
  return rec'

theorem reading_struct (fs : Forms) (slot : UInt32) :
    reading (.struct fs) slot = .i32 <$> readingRecord fs slot := by
  rw [reading, readingRecord]
  simp only [map_bind, map_pure]

/-! ## Objects -/

/-- The address of the identifier of the object in a record. -/
def identifierOf (rec : UInt32) : Compute UInt32 := do
  load32 (← load32 (← load32 rec 0) 0) 0

def slotCopy : Compute UInt32 := do
  let slot ← allocate 32
  copy slot derivedSlot 32
  return slot

/-- Writes an object under an owner. -/
def saving (fs : Forms) (rec owner : UInt32) : Compute Unit := do
  Compute.deriveSlot owner (← identifierOf rec)
  let slot ← slotCopy
  storingAll fs rec slot 0
  host .storageFlush [1]

/-- Reads an object under an owner; it must have the identifier. -/
def retrieving (fs : Forms) (owner id : UInt32) : Compute UInt32 := do
  Compute.deriveSlot owner id
  let rec' ← readingRecord fs (← slotCopy)
  let same ← Compute.sameWord (← identifierOf rec') id
  trapWhen !same
  return rec'

/-- Clears `n` slots and moves on past them. -/
def clearing : (n : Nat) → (slot : UInt32) → Compute Unit
  | 0, _ => pure ()
  | n + 1, slot => do
    host .storageCache [slot, zeroWord]
    Compute.stepSlot slot
    clearing n slot

/-- Clears the `n` words of an object under an owner. -/
def deleting (n : Nat) (rec owner : UInt32) : Compute Unit := do
  Compute.deriveSlot owner (← identifierOf rec)
  let slot ← slotCopy
  clearing n slot
  host .storageFlush [1]

/-- The first word of the object under an owner is the identifier. -/
def probing (owner id : UInt32) : Compute Bool := do
  Compute.deriveSlot owner id
  host .storageLoad [derivedSlot, slotData]
  Compute.sameWord slotData id

/-- Finds the owner of an object. -/
def locating (id : UInt32) : Compute Unit := do
  zero ownerScratch 12
  host .txOrigin [ownerScratch + 12]
  if ← probing ownerScratch id then pure ()
  else if ← probing sharedOwner id then copy ownerScratch sharedOwner 32
  else if ← probing frozenOwner id then copy ownerScratch frozenOwner 32
  else trapWhen true

/-- Reads an object wherever it is filed. -/
def loading (fs : Forms) (id : UInt32) : Compute UInt32 := do
  locating id
  readingRecord fs (← slotCopy)

/-! ## Fields one after another -/

/-- The code writes the parts of the record in local 0, from an offset on, to the slots from the one
at the place in local 1 on. Its own locals start at `v`. -/
def SavesFields (p : Program) (fs : Forms) (offset v : UInt32) (x : Piece) : Prop :=
  ∀ (ls : List Value) (n : Nat) (rec slot : UInt32) (vm : Vm), v = UInt32.ofNat n → 2 < n →
    n + x.1.length ≤ ls.length → ls.length ≤ UInt32.size → ls[0]? = some (.i32 rec) →
    ls[1]? = some (.i32 slot) → ls[2]? = some (.i32 slotData) →
    Sim p x.2 (vm.frame ls []) (Going 3 ls [] fun _ _ => True)
      ((storingAll fs rec slot offset).run vm)

/-- The code reads the parts of the record in local 2, from an offset on, from the slots from the
one at the place in local 0 on. Its own locals start at `v`. -/
def ReadsFields (p : Program) (fs : Forms) (offset v : UInt32) (x : Piece) : Prop :=
  ∀ (ls : List Value) (n : Nat) (rec slot : UInt32) (vm : Vm), v = UInt32.ofNat n → 2 < n →
    n + x.1.length ≤ ls.length → ls.length ≤ UInt32.size → ls[0]? = some (.i32 slot) →
    ls[1]? = some (.i32 slotData) → ls[2]? = some (.i32 rec) →
    Sim p x.2 (vm.frame ls []) (Going 3 ls [] fun _ _ => True)
      ((readingAll fs rec slot offset).run vm)

theorem savesFields_nil {p : Program} {offset v : UInt32} : SavesFields p .nil offset v ([], []) :=
  fun ls _ _ _ _ _ _ _ _ _ _ _ => by
    rw [storingAll]
    exact .nil ⟨ls, .refl 3 ls, trivial, rfl⟩

theorem readsFields_nil {p : Program} {offset v : UInt32} : ReadsFields p .nil offset v ([], []) :=
  fun ls _ _ _ _ _ _ _ _ _ _ _ => by
    rw [readingAll]
    exact .nil ⟨ls, .refl 3 ls, trivial, rfl⟩

section

variable {p : Program} {b : Bool} {f : Form} {fs gs : Forms} {t : MoveType} {offset v : UInt32}
  {next : UInt32} {locals locals' : List ValType} {code code' : Code}

theorem Sim.going_trans {α : Type} {ls ls' : List Value} {s : State} {m : Compute α}
    (hkept : Kept 3 ls ls') (h : Sim p code s (Going 3 ls' [] fun _ _ => True) (m.run vm)) :
    Sim p code s (Going 3 ls [] fun _ _ => True) (m.run vm) :=
  h.mono fun _ _ ⟨ls'', hkept', _, he⟩ => ⟨ls'', hkept.trans hkept' le_rfl, trivial, he⟩

section

variable {cache : UInt32} (ht : (t.register = .i64) = f.wide)
  (hrest : SavesFields p fs (offset + f.slotWord) (v + 1 + UInt32.ofNat locals.length)
    (locals', code'))

include ht hrest

theorem savesFields_word (hnext : IsStepSlot p next)
    (hcache : p.funcs[cache.toNat]? = some (.host .storageCache)) (hf : ∀ gs, f ≠ .struct gs)
    (hword : WritesWord p f v (locals, code)) :
    SavesFields p (.cons b f fs) offset v (t.register :: locals ++ locals',
      [push 0, loadValue t offset, pop v] ++
        (code ++ [push 1, push 2, call cache, push 1, call next]) ++ code') := by
  intro ls n rec slot vm hv hn hlength hsize hrec hslot hdata
  simp only [length_append, length_cons] at hlength
  have hvn := toNat_local_zero hv (by omega)
  simp only [storingAll, storing_word hf, append_assoc, cons_append, nil_append,
    bind_assoc]
  rw [sim_local hrec]
  refine sim_loadValue ht fun x hx => ?_
  rw [sim_pop, hvn]
  have hset (i : Nat) (hi : i < n) : (ls.set n x)[i]? = ls[i]? :=
    getElem?_set_ne (by omega)
  refine .append_going (hword (ls.set n x) n x slotData vm hv hn
    (by rw [length_set]; simp only; omega) (by rwa [length_set])
    (getElem?_set_self (by omega)) ((hset 2 hn).trans hdata) hx) fun _ vm₁ ls₁ _ hkept _ => ?_
  have hget (i : Nat) (hi : i < n) : ls₁[i]? = ls[i]? := (hkept.get_eq i hi).trans (hset i hi)
  have hslot₁ := (hget 1 (by omega)).trans hslot
  have hdata₁ := (hget 2 (by omega)).trans hdata
  have hlen : ls₁.length = ls.length := by rw [hkept.length_eq, length_set]
  rw [sim_local hslot₁, sim_local hdata₁]
  refine .callHost hcache [slot, slotData] rfl fun vm₂ _ => ?_
  rw [sim_local hslot₁]
  refine .call (hnext slot) fun _ vm₃ _ => ?_
  refine Sim.going_trans ⟨hlen, fun i hi => hget i (by omega)⟩ (hrest ls₁ (n + 1 + locals.length)
    rec slot vm₃ ?_ (by omega) (by simp only [hlen]; omega) (by rwa [hlen])
    ((hget 0 (by omega)).trans hrec) hslot₁ hdata₁)
  rw [hv, UInt32.ofNat_add, UInt32.ofNat_add]
  rfl

omit hrest

theorem savesFields_struct
    (hinner : ∀ rec slot, Computes p inner [.i32 rec, .i32 slot] (storingAll gs rec slot 0)
      fun _ => [])
    (hf : f = .struct gs)
    (hrest : SavesFields p fs (offset + f.slotWord) (v + 1) (locals', code')) :
    SavesFields p (.cons b f fs) offset v (t.register :: locals',
      [push 0, loadValue t offset, pop v] ++ [push v, push 1, call inner] ++ code') := by
  intro ls n rec slot vm hv hn hlength hsize hrec hslot hdata
  simp only [length_cons] at hlength
  have hvn := toNat_local_zero hv (by omega)
  simp only [storingAll, cons_append, nil_append]
  rw [sim_local hrec]
  refine sim_loadValue ht fun x hx => ?_
  subst hf
  obtain ⟨a, rfl⟩ := eq_i32_of_wide hx
  rw [sim_pop, hvn, storing, Value.word]
  have hget (i : Nat) (hi : i < n) : (ls.set n (.i32 a))[i]? = ls[i]? :=
    getElem?_set_ne (by omega)
  have ha : (ls.set n (.i32 a))[v.toNat]? = some (.i32 a) := by
    rw [hvn, getElem?_set_self (by omega)]
  have hslot₁ := (hget 1 (by omega)).trans hslot
  rw [sim_local ha, sim_local hslot₁]
  refine .call (hinner a slot) fun _ vm₁ _ => ?_
  refine Sim.going_trans ((Kept.refl 3 ls).set (by omega) _) (hrest _ (n + 1) rec slot vm₁ ?_
    (by omega) (by rw [length_set]; simp only; omega) (by rwa [length_set])
    ((hget 0 (by omega)).trans hrec) hslot₁ ((hget 2 (by omega)).trans hdata))
  rw [hv, UInt32.ofNat_add]
  rfl

end

section

variable {load : UInt32} (ht : (t.register = .i64) = f.wide)
  (hrest : ReadsFields p fs (offset + f.slotWord) (v + UInt32.ofNat locals.length)
    (locals', code'))

include ht hrest

theorem readsFields_word (hnext : IsStepSlot p next)
    (hload : p.funcs[load.toNat]? = some (.host .storageLoad)) (hf : ∀ gs, f ≠ .struct gs)
    (hword : ReadsWord p f v (locals, code)) (hlocals : 0 < locals.length) :
    ReadsFields p (.cons b f fs) offset v (locals ++ locals',
      ([push 0, push 1, call load] ++ code ++ [push 0, call next]) ++
        [push 2, push v, storeValue t offset] ++ code') := by
  intro ls n rec slot vm hv hn hlength hsize hslot hdata hrec
  simp only [length_append] at hlength
  have hvn := toNat_local_zero hv (by omega)
  simp only [readingAll, reading_word hf, append_assoc, cons_append, nil_append,
    bind_assoc, pure_bind]
  rw [sim_local hslot, sim_local hdata]
  refine .callHost hload [slot, slotData] rfl fun vm₁ _ => ?_
  refine .append_going (hword ls n slotData vm₁ hv hn (by simp only; omega) hsize hdata)
    fun x vm₂ ls₂ hx hkept hget => ?_
  have hwide := readingWord_wide f slotData vm₁ x vm₂ hx
  have hslot₂ := (hkept.get_eq 0 (by omega)).trans hslot
  rw [sim_local hslot₂]
  refine .call (hnext slot) fun _ vm₃ _ => ?_
  have hrec₂ := (hkept.get_eq 2 (by omega)).trans hrec
  rw [reverse_nil, nil_append, sim_local hrec₂, sim_local (by rwa [hvn])]
  refine sim_storeValue ht hwide fun vm₄ => ?_
  have hlen := hkept.length_eq
  refine Sim.going_trans ⟨hlen, fun i hi => hkept.get_eq i (by omega)⟩ (hrest ls₂
    (n + locals.length) rec slot vm₄ ?_ (by omega) (by simp only [hlen]; omega) (by rwa [hlen])
    hslot₂ ((hkept.get_eq 1 (by omega)).trans hdata) hrec₂)
  rw [hv, UInt32.ofNat_add]

omit hrest

theorem readsFields_struct
    (hinner : ∀ slot, Computes p inner [.i32 slot] (readingRecord gs slot) fun a => [.i32 a])
    (hf : f = .struct gs)
    (hrest : ReadsFields p fs (offset + f.slotWord) (v + 1) (locals', code')) :
    ReadsFields p (.cons b f fs) offset v (.i32 :: locals',
      [push 0, call inner, pop v] ++ [push 2, push v, storeValue t offset] ++ code') := by
  intro ls n rec slot vm hv hn hlength hsize hslot hdata hrec
  simp only [length_cons] at hlength
  have hvn := toNat_local_zero hv (by omega)
  subst hf
  simp only [readingAll, reading_struct, map_eq_pure_bind, cons_append, nil_append,
    bind_assoc, pure_bind]
  rw [sim_local hslot]
  refine .call (hinner slot) fun a vm₁ _ => ?_
  rw [reverse_singleton, singleton_append, sim_pop, hvn]
  have hget (i : Nat) (hi : i < n) : (ls.set n (.i32 a))[i]? = ls[i]? :=
    getElem?_set_ne (by omega)
  have ha : (ls.set n (.i32 a))[v.toNat]? = some (.i32 a) := by
    rw [hvn, getElem?_set_self (by omega)]
  have hrec₁ := (hget 2 (by omega)).trans hrec
  rw [sim_local hrec₁, sim_local ha]
  refine sim_storeValue ht rfl fun vm₂ => ?_
  refine Sim.going_trans ((Kept.refl 3 ls).set (by omega) _) (hrest _ (n + 1) rec slot vm₂ ?_
    (by omega) (by rw [length_set]; simp only; omega) (by rwa [length_set])
    ((hget 0 (by omega)).trans hslot) ((hget 1 (by omega)).trans hdata) hrec₁)
  rw [hv, UInt32.ofNat_add]
  rfl

end

theorem sim_fieldWriterBody (hsaves : SavesFields p fs 0 3 (locals, code))
    (hlocals : locals.length + 3 ≤ UInt32.size) (rec slot : UInt32) (vm : Vm) :
    Sim p ([const slotData, pop 2] ++ code)
      (vm.frame ([.i32 rec, .i32 slot] ++ (ValType.i32 :: locals).map Value.zero) [])
      (Leaves (fun _ => []) 0) ((storingAll fs rec slot 0).run vm) := by
  simp only [cons_append, nil_append]
  rw [sim_const, sim_pop]
  refine .leaves_going (hsaves _ 3 rec slot vm rfl (by omega) ?_ ?_ rfl rfl rfl)
  · simp
    omega
  · simp
    omega

theorem sim_fieldReaderBody (halloc : HasAllocator p) {size : UInt32}
    (hsize : size = UInt32.ofNat fs.record) (hreads : ReadsFields p fs 0 3 (locals, code))
    (hlocals : locals.length + 3 ≤ UInt32.size) (slot : UInt32) (vm : Vm) :
    Sim p ([const slotData, pop 1] ++ alloc size 2 ++ code ++ [push 2])
      (vm.frame ([.i32 slot] ++ (ValType.i32 :: .i32 :: locals).map Value.zero) [])
      (Leaves (fun a => [.i32 a]) 1) ((readingRecord fs slot).run vm) := by
  rw [readingRecord, hsize]
  simp only [append_assoc, cons_append, nil_append]
  rw [sim_const, sim_pop]
  refine .append (sim_alloc vm halloc _ 2) fun rec vm₁ _ => ?_
  refine .append_going (hreads _ 3 rec slot vm₁ rfl (by omega) ?_ ?_ rfl rfl rfl)
    fun _ vm₂ ls₂ _ hkept _ => ?_
  · simp
    omega
  · simp
    omega
  · rw [sim_local ((hkept.get_eq 2 (by omega)).trans rfl)]
    exact .nil ⟨rfl, _, rfl⟩

end

/-! ## Bodies -/

section

variable {p : Program} {ls : List Value} {slotFn fields flush : UInt32}

theorem sim_pushIdentifier {rec : UInt32} {k : List Value} (hx : ls[x.toNat]? = some (.i32 rec))
    {g : UInt32 → Compute β}
    (h : ∀ a, Sim p rest (vm.frame ls (.i32 a :: k)) final ((g a).run vm)) :
    Sim p (pushIdentifier x ++ rest) (vm.frame ls k) final ((identifierOf rec >>= g).run vm) := by
  simp only [pushIdentifier, identifierOf, cons_append, nil_append, bind_assoc]
  rw [sim_local hx]
  exact .load32 fun _ _ => Sim.load32 fun _ _ => Sim.load32 fun a _ => h a

theorem sim_copySlot (halloc : HasAllocator p) (hx : x.toNat < ls.length) :
    Sim p (copySlot x) (vm.frame ls []) (Next fun a vm' => vm'.frame (ls.set x.toNat (.i32 a)) [])
      (slotCopy.run vm) := by
  rw [copySlot, slotCopy]
  refine .append (sim_alloc vm halloc 32 x) fun a vm₁ _ => ?_
  rw [sim_local (getElem?_set_self hx), sim_const, sim_const]
  exact .copyBytes fun vm₂ _ => Sim.nil rfl

theorem sim_clearing {next cache slot : UInt32} (hnext : IsStepSlot p next)
    (hcache : p.funcs[cache.toNat]? = some (.host .storageCache))
    (hx : ls[x.toNat]? = some (.i32 slot)) (n : Nat) (vm : Vm) :
    Sim p ((List.range n).flatMap fun _ =>
        [push x, const zeroWord, call cache, push x, call next]) (vm.frame ls [])
      (Next fun _ vm' => vm'.frame ls []) ((clearing n slot).run vm) := by
  induction n generalizing vm with
  | zero => exact .nil rfl
  | succ n ih =>
    have hcode : ((List.range (n + 1)).flatMap fun _ =>
        ([push x, const zeroWord, call cache, push x, call next] : Code)) =
          [push x, const zeroWord, call cache, push x, call next] ++
            (List.range n).flatMap fun _ =>
              [push x, const zeroWord, call cache, push x, call next] := by
      rw [range_succ_eq_map, flatMap_cons, flatMap_map]
    rw [hcode, clearing]
    simp only [cons_append, nil_append]
    rw [sim_local hx, sim_const]
    refine .callHost hcache [slot, zeroWord] rfl fun vm₁ _ => ?_
    rw [sim_local hx]
    exact .call (hnext slot) fun _ vm₂ _ => ih vm₂

variable (halloc : HasAllocator p) (hslot : IsDeriveSlot p slotFn)

include halloc hslot

theorem sim_saveBody
    (hfields : ∀ rec slot, Computes p fields [.i32 rec, .i32 slot] (storingAll fs rec slot 0)
      fun _ => []) (hflush : p.funcs[flush.toNat]? = some (.host .storageFlush))
    (rec owner : UInt32) (vm : Vm) :
    Sim p (saveBody slotFn fields flush) (vm.frame [.i32 rec, .i32 owner, .i32 0] [])
      (Leaves (fun _ => []) 0) ((saving fs rec owner).run vm) := by
  rw [saveBody, saving]
  simp only [append_assoc, cons_append, nil_append]
  rw [sim_local rfl]
  refine sim_pushIdentifier rfl fun id => ?_
  refine .call (hslot owner id) fun _ vm₁ _ => ?_
  refine .append (sim_copySlot halloc (by simp)) fun slot vm₂ _ => ?_
  rw [sim_local rfl, sim_local rfl]
  refine .call (hfields rec slot) fun _ vm₃ _ => ?_
  rw [sim_const]
  exact .last (Sim.callHost hflush [1] rfl fun _ _ => Sim.nil ⟨rfl, _, rfl⟩)

theorem sim_readBody {eq : UInt32} (heq : IsSameWord p eq)
    (hfields : ∀ slot, Computes p fields [.i32 slot] (readingRecord fs slot) fun a => [.i32 a])
    (owner id : UInt32) (vm : Vm) :
    Sim p (readBody slotFn eq fields) (vm.frame [.i32 owner, .i32 id, .i32 0, .i32 0] [])
      (Leaves (fun a => [.i32 a]) 1) ((retrieving fs owner id).run vm) := by
  rw [readBody, retrieving]
  simp only [append_assoc, cons_append, nil_append]
  rw [sim_local rfl, sim_local rfl]
  refine .call (hslot owner id) fun _ vm₁ _ => ?_
  refine .append (sim_copySlot halloc (by simp)) fun slot vm₂ _ => ?_
  rw [sim_local rfl]
  refine .call (hfields slot) fun rec vm₃ _ => ?_
  rw [reverse_singleton, singleton_append, sim_pop]
  refine sim_pushIdentifier rfl fun a => ?_
  rw [sim_local rfl]
  refine .call (heq a id) fun same vm₄ _ => ?_
  rw [reverse_singleton, singleton_append, Value.ofBool, sim_eqz]
  have hnot : ((if same then 1 else 0 : UInt32) == 0) = !same := by cases same <;> rfl
  rw [hnot]
  refine .trapIf_ofBool fun _ => ?_
  rw [sim_local rfl]
  exact .nil ⟨rfl, _, rfl⟩

theorem sim_deleteBody {next cache : UInt32} (hnext : IsStepSlot p next)
    (hcache : p.funcs[cache.toNat]? = some (.host .storageCache))
    (hflush : p.funcs[flush.toNat]? = some (.host .storageFlush)) (n : Nat)
    (rec owner : UInt32) (vm : Vm) :
    Sim p (deleteBody slotFn next cache flush n) (vm.frame [.i32 rec, .i32 owner, .i32 0] [])
      (Leaves (fun _ => []) 0) ((deleting n rec owner).run vm) := by
  rw [deleteBody, deleting]
  simp only [append_assoc, cons_append, nil_append]
  rw [sim_local rfl]
  refine sim_pushIdentifier rfl fun id => ?_
  refine .call (hslot owner id) fun _ vm₁ _ => ?_
  refine .append (sim_copySlot halloc (by simp)) fun slot vm₂ _ => ?_
  refine .append (sim_clearing hnext hcache rfl n vm₂) fun _ vm₃ _ => ?_
  rw [sim_const]
  exact .last (Sim.callHost hflush [1] rfl fun _ _ => Sim.nil ⟨rfl, _, rfl⟩)

omit hslot

theorem sim_loadBody {locate : UInt32}
    (hlocate : ∀ id, Computes p locate [.i32 id] (locating id) fun _ => [])
    (hfields : ∀ slot, Computes p fields [.i32 slot] (readingRecord fs slot) fun a => [.i32 a])
    (id : UInt32) (vm : Vm) : Sim p (loadBody locate fields) (vm.frame [.i32 id, .i32 0] [])
      (Leaves (fun a => [.i32 a]) 1) ((loading fs id).run vm) := by
  rw [loadBody, loading]
  simp only [cons_append, nil_append]
  rw [sim_local rfl]
  refine .call (hlocate id) fun _ vm₁ _ => ?_
  refine .append (sim_copySlot halloc (by simp)) fun slot vm₂ _ => ?_
  rw [sim_local rfl]
  exact .last (Sim.call (hfields slot) fun rec vm₃ _ => Sim.nil ⟨rfl, _, rfl⟩)

end

/-! ## Finding the owner -/

section

variable {p : Program} {slotFn load eq origin id : UInt32} {vm : Vm}

/-- Calls the functions that a search for an owner is made of. -/
structure Probes (p : Program) (slotFn load eq : UInt32) : Prop where
  slot : IsDeriveSlot p slotFn
  load : p.funcs[load.toNat]? = some (.host .storageLoad)
  eq : IsSameWord p eq

theorem sim_probe (h : Probes p slotFn load eq)
    (owner : UInt32) {g : Bool → Compute β}
    (hrest : ∀ b vm', Sim p rest (vm'.frame [.i32 id] [Value.ofBool b]) final ((g b).run vm')) :
    Sim p (probe slotFn load eq owner ++ rest) (vm.frame [.i32 id] []) final
      ((probing owner id >>= g).run vm) := by
  simp only [probe, probing, cons_append, nil_append, bind_assoc]
  rw [sim_const, sim_local rfl]
  refine .call (h.slot owner id) fun _ vm₁ _ => ?_
  rw [reverse_nil, nil_append, sim_const, sim_const]
  refine .callHost h.load [derivedSlot, slotData] rfl fun vm₂ _ => ?_
  rw [sim_const, sim_local rfl]
  exact .call (h.eq slotData id) fun b vm₃ _ => hrest b vm₃

/-- What is tried for an owner: if the object is there, the owner is noted and the search ends. -/
theorem sim_found (h : Probes p slotFn load eq) (owner : UInt32) {m : Compute Unit}
    (hrest : ∀ vm', Sim p rest (vm'.frame [.i32 id] [])
      (Jump 0 fun _ vm' => vm'.frame [.i32 id] []) (m.run vm')) :
    Sim p (probe slotFn load eq owner ++
        (when (copyWord ownerScratch (const owner) ++ [br 1]) :: rest)) (vm.frame [.i32 id] [])
      (Jump 0 fun _ vm' => vm'.frame [.i32 id] [])
      ((probing owner id >>= fun b => if b then copy ownerScratch owner 32 else m).run vm) := by
  refine sim_probe h owner fun b vm₁ => ?_
  cases b with
  | false => exact sim_when_skip.mpr (hrest vm₁)
  | true =>
    refine .when_out (by decide) ?_
    simp only [copyWord, cons_append, nil_append, if_true]
    rw [sim_const, sim_const, sim_const]
    exact .last (Sim.copyBytes fun vm₂ _ => Sim.jump (by simp) rfl rfl)

theorem sim_locateBody (h : Probes p slotFn load eq)
    (horigin : p.funcs[origin.toNat]? = some (.host .txOrigin)) :
    Sim p (locateBody slotFn load eq origin) (vm.frame [.i32 id] []) (Leaves (fun _ => []) 0)
      ((locating id).run vm) := by
  simp only [locateBody, locating, append_assoc]
  rw [sim_const, sim_const, sim_const]
  refine .fillZero fun vm₁ _ => ?_
  rw [sim_const]
  refine .callHost horigin [ownerScratch + 12] rfl fun vm₂ _ => ?_
  refine .last (Sim.block [.i32 id] ?_ fun _ vm₃ _ => Sim.nil ⟨rfl, _, rfl⟩)
  refine sim_probe h ownerScratch fun b vm₄ => ?_
  cases b with
  | true => exact .jump (by simp) (step_brIf (by decide)) rfl
  | false =>
    simp only [cons_append, nil_append]
    rw [Value.ofBool, if_neg (by decide), sim_brIf_zero]
    refine sim_found h sharedOwner fun vm₅ => sim_found h frozenOwner fun vm₆ => ?_
    exact .op_halt (by simp) rfl rfl

end

end MoveCodec.Storage
