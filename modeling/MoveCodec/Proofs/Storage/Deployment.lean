import MoveCodec.Proofs.Codec.Modules
import MoveCodec.Proofs.Codec.Orders
import MoveCodec.Proofs.Machine.Attempts
import MoveCodec.Proofs.Storage.SlotArithmetic

/-!
# Deployed modules

A module grows by tasks, of which any can fail: orders to the codec, and requests for the functions
that work on slots. In an instance of such a module every function does what was asked for, whatever
else the module was asked for, and memory has the words that storage code relies on.
-/
namespace MoveCodec.Storage

open Wasm Assembly Machine Machine.Compute Prelude Codec List Bytes

variable {vm vm₁ : Vm} {k : Nat} {P : List Value → Vm → Prop} {o : Options}

/-! ## Tasks -/

inductive Task where
  | order (o : Order)
  | stepSlot
  | deriveSlot

/-- The generator of the function that is asked for. -/
def Task.make (c : Context) : Task → Generate FuncId
  | .order o => o.make c
  | .stepSlot => Storage.stepSlot
  | .deriveSlot => Storage.deriveSlot c

inductive Grows (c : Context) (a : Assembly) : Assembly → Prop
  | refl : Grows c a a
  | task {b : Assembly} (x : Task) : Grows c a b → Grows c a (left ((x.make c).run b))
  | exported {b : Assembly} (name : String) (f : FuncId) : Grows c a b →
      Grows c a { b with draft := b.draft.exportFunc name f }

section

variable {c : Context} {H : Program → Prop}

section

variable (hH : ∀ p, H p → HasAllocator p)

include hH

theorem keepsTable_tupleParts :
    ∀ fields : List (MoveType × UInt32), KeepsTable c.registry H (tupleParts c fields)
  | [] => .pure _
  | _ :: fields => .lift fun _ _ => KeepsTable.bind (.of_makes (makes_pack hH _)) fun _ =>
      .lift fun _ _ => KeepsTable.bind (keepsTable_tupleParts fields) fun _ => .pure _

theorem keepsTable_revert (d : StructDef) :
    KeepsTable c.registry H (revert c d) := by
  refine .lift fun _ _ => .lift fun fields _ => .lift fun signature _ => ?_
  refine KeepsTable.of_makes (Makes.request (S := Serves c.registry) fun name => ?_)
  exact .bind (.under (keepsTable_tupleParts hH fields)) fun parts =>
    .define (.pure fun _ _ _ _ => trivial)

theorem keepsTable_raise (d : StructDef) :
    KeepsTable c.registry H (raise c d) :=
  .bind (keepsTable_revert hH d) fun _ => .bind (.of_makes (.importHost c _)) fun _ =>
    .request (by exact fun _ _ => trivial) (.pure _)

theorem keepsTable_emit (d : StructDef) :
    KeepsTable c.registry H (emit c d) := by
  refine .lift fun _ _ => .lift fun fields _ => ?_
  split
  · exact fun _ ha _ => ⟨ha, .refl _⟩
  · refine .lift fun _ _ => .lift fun _ _ => KeepsTable.bind (.of_makes (.importHost c _)) fun log => ?_
    refine KeepsTable.of_makes (Makes.request (S := Serves c.registry) fun name => ?_)
    exact .bind (.under (keepsTable_tupleParts hH _)) fun _ =>
      .bind (.under (keepsTable_tupleParts (fun p hp => hH p hp.1) _)) fun _ =>
        .define (.pure fun _ _ _ _ => trivial)

end

theorem keepsTable_task (hc : c.registry.Made) (x : Task) :
    KeepsTable c.registry HasAllocator (x.make c) := by
  cases x with
  | stepSlot => exact .of_makes makes_stepSlot
  | deriveSlot => exact .of_makes (makes_deriveSlot c)
  | order o =>
    cases o with
    | pack t => exact .of_makes (makes_pack (fun _ h => h) t)
    | unpack t => exact .of_makes (makes_unpack (fun _ h => h) t)
    | packValues ts => exact .of_makes (makes_packValues hc (fun _ h => h) ts)
    | unpackValues ts => exact .of_makes (makes_unpackValues hc (fun _ h => h) ts)
    | revert d => exact keepsTable_revert (fun _ h => h) d
    | raise d => exact keepsTable_raise (fun _ h => h) d
    | emit d => exact keepsTable_emit (fun _ h => h) d
    | save id args => exact .of_makes (makes_save (fun _ h => h) id args)
    | read id args => exact .of_makes (makes_read (fun _ h => h) id args)
    | load id args => exact .of_makes (makes_load (fun _ h => h) id args)
    | delete id args => exact .of_makes (makes_delete (fun _ h => h) id args)

/-- Growing keeps what there is, and what is new does what the table says. -/
theorem Grows.sound (hc : c.registry.Made) {a b : Assembly} (h : Grows c a b)
    (ha : Sound (Serves c.registry) a) (halloc : Always a.draft HasAllocator) :
    Sound (Serves c.registry) b ∧ a.draft.Extends b.draft := by
  induction h with
  | refl => exact ⟨ha, .refl _⟩
  | @task b x _ ih =>
    obtain ⟨hb, hext⟩ := ih
    have hends := keepsTable_task hc x b hb (halloc.mono hext.keeps)
    cases hrun : (x.make c).run b with
    | ok f b' =>
      rw [hrun] at hends
      exact ⟨hends.1, hext.trans hends.2.1⟩
    | error e b' =>
      rw [hrun] at hends
      exact ⟨hends.1, hext.trans hends.2⟩
  | @exported b name f _ ih =>
    obtain ⟨hb, hext⟩ := ih
    have hexport : b.draft.Extends (b.draft.exportFunc name f) :=
      ⟨le_rfl, fun _ => prefix_rfl, rfl, rfl, rfl⟩
    exact ⟨hb.grow hexport.keeps fun _ _ hi _ => .inl hi, hext.trans hexport⟩

theorem sound_start (c : Context) (name : String) :
    Sound (Serves c.registry) (start name c.options) :=
  ⟨fun _ _ _ hf => (by cases hf), fun _ _ _ _ _ _ _ _ => trivial⟩

end

/-! ## Instances -/

structure Deployment (c : Context) where
  name : String
  assembly : Assembly
  grown : Grows c (start name c.options) assembly
  numbers : assembly.draft.checkNumbers = .ok ()
  module : Module (List Instr)
  linked : assembly.draft.link = .ok module
  engine : Engine
  limit_le : engine.limit.toNat ≤ maxPages
  host : Host
  inst : Instance
  instantiated : instantiate engine host module = .ok inst

namespace Deployment

variable {c : Context} (d : Deployment c)

/-- The generator was run while the module was grown, and gave the function. -/
def Offers (g : Generate FuncId) (f : FuncId) : Prop :=
  ∃ a b, Grows c (start d.name c.options) a ∧ g.run a = .ok f b ∧ Grows c b d.assembly

def call (fuel : Nat) (f : FuncId) (args : List Value) (store : Store) : Return :=
  invoke d.inst.program fuel (d.assembly.draft.number f) args store

/-- With enough fuel the call ends with these results and in this state. -/
def Returns (f : FuncId) (args : List Value) (vm : Vm) (out : List Value) (vm' : Vm) : Prop :=
  ∃ n, ∀ fuel, n ≤ fuel → d.call fuel f args vm.store = ⟨.ok out, vm'.store⟩

/-- With enough fuel the call traps. -/
def Traps (f : FuncId) (args : List Value) (vm : Vm) : Prop :=
  ∃ n t, ∀ fuel, n ≤ fuel → (d.call fuel f args vm.store).outcome = .error (.trap t)

/-- The call takes `n` bytes from the heap and ends as `P` says; or it traps, and then there is no
space for `n` bytes. -/
def Ends (f : FuncId) (args : List Value) (vm : Vm) (n : Nat) (P : List Value → Vm → Prop) : Prop :=
  (∃ out vm', d.Returns f args vm out vm' ∧ vm'.top.toNat = vm.top.toNat + n ∧ P out vm') ∨
  (d.Traps f args vm ∧ vm.space < vm.top.toNat + n)

/-- Calls one after another, with the same arguments and without results. -/
def Repeats (f : FuncId) (args : List Value) : Nat → Vm → Vm → Prop
  | 0, vm, vm' => vm' = vm
  | n + 1, vm, vm' => ∃ vm₁, d.Returns f args vm [] vm₁ ∧ Repeats f args n vm₁ vm'

def program : Program := d.assembly.draft.program d.inst.program.types

theorem fits : d.assembly.draft.Fits := (checkNumbers_eq_ok d.numbers).1

theorem numbered : Numbered d.program := by
  intro f t locals body hf
  simp only [program, Draft.program, getElem?_toArray, getElem?_map,
    Option.map_eq_some_iff] at hf
  obtain ⟨e, he, hcallee⟩ := hf
  cases e with
  | imported home name t =>
    cases hcallee
  | defined name t' locals' code finished =>
    cases hcallee
    exact (checkNumbers_eq_ok d.numbers).2 _ _ _ _ _ (mem_of_getElem? he)

variable {d}

theorem Offers.serves (hc : c.registry.Made) {g : Generate FuncId} {f : FuncId}
    (h : d.Offers g f) {Q : FuncId → Program → Prop}
    (hg : Makes (Serves c.registry) HasAllocator g Q) : Q f d.program := by
  obtain ⟨a, b, hbefore, hrun, hafter⟩ := h
  have halloc := always_hasAllocator d.name c.options
  obtain ⟨ha, hext⟩ := hbefore.sound hc (sound_start c d.name) halloc
  have halloc := halloc.mono hext.keeps
  have hends := hg a ha halloc
  rw [hrun] at hends
  obtain ⟨hb, hext', hf⟩ := hends
  have hkeeps := (hafter.sound hc hb (halloc.mono hext'.keeps)).2.keeps
  exact hf d.assembly.draft _ hkeeps d.fits

section

variable {α : Type} {f : FuncId} {args vs : List Value} {comp : Compute α} {out : α → List Value}

theorem call_eq_invoke (fuel : Nat) (f : FuncId) (args : List Value) (store : Store) :
    d.call fuel f args store = invoke d.program fuel f args store :=
  (link_embeds d.fits d.linked d.instantiated).invoke_eq fuel f args store

/-- A call into the instance does what the function computes. -/
theorem returns_of_computes (h : Computes d.program f args comp out) {vm' : Vm} {x : α}
    (hrun : comp.run vm = .ok (x, vm')) : d.Returns f args vm (out x) vm' := by
  obtain ⟨n, hn⟩ := h.invoke vm
  refine ⟨n, fun fuel hfuel => ?_⟩
  rw [call_eq_invoke]
  exact (hn fuel hfuel).1 x vm' hrun

theorem traps_of_computes (h : Computes d.program f args comp out) {t : Trap}
    (hrun : comp.run vm = .error (.trap t)) : d.Traps f args vm := by
  obtain ⟨n, hn⟩ := h.invoke vm
  refine ⟨n, t, fun fuel hfuel => ?_⟩
  rw [call_eq_invoke]
  exact (hn fuel hfuel).2 _ hrun

theorem ends_of_computes (h : Computes d.program f args comp out)
    {P : α → Vm → Prop} (hrun : Tries comp vm k P) :
    d.Ends f args vm k fun vs vm' => ∃ x, vs = out x ∧ P x vm' := by
  rcases hrun with ⟨x, vm', hrun, htop, -, hx⟩ | ⟨⟨t, hrun⟩, hspace⟩
  · exact .inl ⟨_, vm', returns_of_computes h hrun, htop, x, rfl, hx⟩
  · exact .inr ⟨traps_of_computes h hrun, hspace⟩

/-- A call has one outcome. -/
theorem Returns.unique {vm₂ : Vm} {vs₁ vs₂ : List Value} (h₁ : d.Returns f args vm vs₁ vm₁)
    (h₂ : d.Returns f args vm vs₂ vm₂) : vs₁ = vs₂ ∧ vm₁.store = vm₂.store := by
  obtain ⟨n, hn⟩ := h₁
  obtain ⟨m, hm⟩ := h₂
  have h := (hn (max n m) (le_max_left n m)).symm.trans (hm (max n m) (le_max_right n m))
  simp only [Return.mk.injEq, Except.ok.injEq] at h
  exact h

theorem Traps.not_returns (h₁ : d.Traps f args vm) (h₂ : d.Returns f args vm vs vm₁) : False := by
  obtain ⟨n, t, hn⟩ := h₁
  obtain ⟨m, hm⟩ := h₂
  have h := hn (max n m) (le_max_left n m)
  rw [hm (max n m) (le_max_right n m)] at h
  cases h

/-- What is known of how a call ends is known of the state it returned in. -/
theorem Ends.of_returns (h : d.Ends f args vm k P) (hr : d.Returns f args vm vs vm₁) :
    ∃ vm₂, vm₂.store = vm₁.store ∧ P vs vm₂ := by
  rcases h with ⟨out, vm₂, hr₂, -, hP⟩ | ⟨ht, -⟩
  · obtain ⟨rfl, hstore⟩ := hr₂.unique hr
    exact ⟨vm₂, hstore, hP⟩
  · exact (ht.not_returns hr).elim

theorem Ends.returns (h : d.Ends f args vm k P)
    (hspace : vm.top.toNat + k ≤ vm.space) : ∃ out vm', d.Returns f args vm out vm' ∧ P out vm' := by
  rcases h with ⟨out, vm', hr, -, hP⟩ | ⟨-, hlt⟩
  · exact ⟨out, vm', hr, hP⟩
  · omega

theorem Ends.mono {Q : List Value → Vm → Prop} (h : d.Ends f args vm k P)
    (hPQ : ∀ vs vm', P vs vm' → Q vs vm') : d.Ends f args vm k Q :=
  h.imp_left fun ⟨out, vm', hr, htop, hP⟩ => ⟨out, vm', hr, htop, hPQ out vm' hP⟩

end

end Deployment

/-! ## Building -/

section

variable {c : Context}

def perform (c : Context) (a : Assembly) (xs : List Task) : Assembly :=
  xs.foldl (fun a x => left ((x.make c).run a)) a

theorem Grows.perform {a b : Assembly} (h : Grows c a b) (xs : List Task) :
    Grows c a (perform c b xs) := by
  induction xs generalizing b with
  | nil => exact h
  | cons x xs ih => exact ih (h.task x)

def Deployment.build? (c : Context) (name : String) (xs : List Task) (host : Host) :
    Option { d : Deployment c //
      d.name = name ∧ d.assembly = Storage.perform c (start name c.options) xs } :=
  let a := Storage.perform c (start name c.options) xs
  match hnumbers : a.draft.checkNumbers with
  | .error _ => none
  | .ok () =>
    match hlink : a.draft.link with
    | .error _ => none
    | .ok m =>
      match hinst : instantiate {} host m with
      | .error _ => none
      | .ok inst =>
        some ⟨⟨name, a, Grows.refl.perform xs, hnumbers, m, hlink, {}, Nat.zero_le _, host, inst,
          hinst⟩, rfl, rfl⟩

theorem Deployment.offers_of_perform {d : Deployment c} {xs ys : List Task} {x : Task}
    (h : d.assembly = Storage.perform c (start d.name c.options) (xs ++ x :: ys))
    (hx : (answer ((x.make c).run (Storage.perform c (start d.name c.options) xs))).isOk) :
    ∃ f, d.Offers (x.make c) f := by
  cases hrun : (x.make c).run (Storage.perform c (start d.name c.options) xs) with
  | error e b =>
    rw [hrun] at hx
    cases hx
  | ok f b =>
    refine ⟨f, _, b, Grows.refl.perform xs, hrun, ?_⟩
    rw [h, Storage.perform, foldl_append, foldl_cons]
    simp only [Storage.perform] at hrun
    rw [hrun]
    exact Grows.refl.perform ys

end

/-! ## The words that code relies on -/

/-- The reserved words are in their places. -/
structure Fitted (o : Options) (f : Nat → UInt8) : Prop where
  zero : wordOf f zeroWord.toNat = Word.zero
  one : number f oneWord.toNat 32 = 1
  base : wordOf f objectsSlot.toNat = baseSlot o.objectsSlot
  shared : wordOf f sharedOwner.toNat = sharedOwnerKey
  frozen : wordOf f frozenOwner.toNat = frozenOwnerKey

/-- Addresses apart from the reserved words: in the word for slots, in the derived slot, or behind
the owners. -/
def Loose (i : Nat) : Prop := 64 ≤ i ∧ i < 96 ∨ 128 ≤ i ∧ i < 160 ∨ 224 ≤ i

theorem Fitted.congr {f g : Nat → UInt8} (h : Fitted o f)
    (hsame : ∀ i, ¬ Loose i → g i = f i) : Fitted o g := by
  have hview {a : Nat} (ha : a + 32 ≤ 64 ∨ 96 ≤ a ∧ a + 32 ≤ 128 ∨ 160 ≤ a ∧ a + 32 ≤ 224) :
      view g a 32 = view f a 32 :=
    view_congr fun i hi => hsame _ (by unfold Loose; omega)
  have hword {a : Nat} (ha : a + 32 ≤ 64 ∨ 96 ≤ a ∧ a + 32 ≤ 128 ∨ 160 ≤ a ∧ a + 32 ≤ 224) :
      wordOf g a = wordOf f a := congrArg Word.ofBytes (hview ha)
  exact {
    zero := (hword (.inl (by decide))).trans h.zero
    one := (number_congr (hview (.inl (by decide)))).trans h.one
    base := (hword (.inr (.inl (by decide)))).trans h.base
    shared := (hword (.inr (.inr (by decide)))).trans h.shared
    frozen := (hword (.inr (.inr (by decide)))).trans h.frozen }

theorem Fitted.patch {f : Nat → UInt8} (h : Fitted o f) {a : Nat} {bs : Bytes}
    (ha : ∀ i, a ≤ i → i < a + bs.length → Loose i) : Fitted o (patch f a bs) := by
  refine h.congr fun i hi => patch_outside ?_
  by_contra hin
  exact hi (ha i (by omega) (by omega))

/-- A state of an instance that storage code can be called in. -/
structure Equipped (o : Options) (vm : Vm) : Prop where
  sane : vm.Sane
  fitted : Fitted o vm.memory.byte

theorem Equipped.size_le (h : Equipped o vm) :
    65536 ≤ vm.memory.size := by
  have h₁ : 320 ≤ vm.memory.size := h.sane.start_le.trans h.sane.top_le
  have h₂ : vm.memory.size = vm.memory.pages.size * 65536 := rfl
  omega

/-! ## New instances -/

theorem byte_zeros (pages limit : Nat) : (Memory.zeros pages limit).byte = fun _ => 0 := by
  funext i
  simp only [Memory.byte, Memory.zeros, Array.getD_eq_getD_getElem?, Array.getElem?_replicate]
  split <;> rfl

theorem memoryOf_eq_ok {e : Engine} {l : Limits} {m : Memory} (h : memoryOf e [l] = .ok m) :
    ∃ pages limit, m = Memory.zeros pages limit ∧ pages ≤ limit ∧ limit ≤ e.pageLimit := by
  rw [memoryOf] at h
  cases hmax : l.max with
  | none =>
    simp only [hmax] at h
    split_ifs at h
    cases h
    exact ⟨_, _, rfl, by omega, le_rfl⟩
  | some k =>
    simp only [hmax] at h
    split_ifs at h
    · cases h
      exact ⟨_, _, rfl, by omega, by omega⟩
    · cases h
      exact ⟨_, _, rfl, by omega, by omega⟩

theorem placeData_eq_ok {i : Nat} {m m' : Memory} {ds : List Data}
    (h : placeData i m ds = .ok m') :
    (∀ d ∈ ds, d.offset.toNat + d.bytes.length ≤ m.size) ∧ m'.pages.size = m.pages.size ∧
      m'.limit = m.limit ∧
      m'.byte = ds.foldl (fun f d => patch f d.offset.toNat d.bytes) m.byte := by
  induction ds generalizing i m with
  | nil =>
    cases h
    exact ⟨nofun, rfl, rfl, rfl⟩
  | cons d ds ih =>
    rw [placeData, Memory.write?] at h
    by_cases hfit : d.offset.toNat + d.bytes.length ≤ m.size
    · rw [if_pos hfit] at h
      obtain ⟨hfits, hpages, hlimit, hbyte⟩ := ih h
      refine ⟨forall_mem_cons.2 ⟨hfit, by simpa using hfits⟩, by simpa using hpages,
        by simpa using hlimit, ?_⟩
      rw [hbyte, m.byte_splice_eq_patch hfit, foldl_cons]
    · rw [if_neg hfit] at h
      cases h

theorem fitted_reservedData (o : Options) :
    Fitted o ((reservedData o).foldl (fun f d => patch f d.offset.toNat d.bytes) fun _ => 0) := by
  change Fitted o (patch (patch (patch (patch (fun _ => 0) 32 [1]) 96
    (ofNatBE 32 o.objectsSlot.toNat)) 160 (ofNatBE 32 1)) 192 (ofNatBE 32 2))
  rw [← Word.toList_ofNat, ← Word.toList_ofNat, ← Word.toList_ofNat]
  have hlen (w : Word) : w.toList.length = 32 := by simp
  refine ⟨?_, ?_, ?_, ?_, wordOf_patch _ _ _⟩
  · rw [show zeroWord.toNat = 0 from rfl, wordOf_patch_outside (.inl (by decide)),
      wordOf_patch_outside (.inl (by decide)), wordOf_patch_outside (.inl (by decide)),
      wordOf_patch_outside (.inl (by decide))]
    decide
  · rw [show oneWord.toNat = 32 from rfl, number, view_patch_outside (.inl (by decide)),
      view_patch_outside (.inl (by decide)), view_patch_outside (.inl (by decide))]
    decide
  · rw [show objectsSlot.toNat = 96 from rfl, wordOf_patch_outside (.inl (by decide)),
      wordOf_patch_outside (.inl (by decide)), wordOf_patch]
    rfl
  · rw [show sharedOwner.toNat = 160 from rfl, wordOf_patch_outside (.inl (by decide)),
      wordOf_patch]
    rfl

/-- Storage code can be called in a new instance. -/
theorem Deployment.exists_equipped {c : Context} (hc : c.registry.Made) (d : Deployment c) :
    ∃ vm : Vm, vm.store = d.inst.store ∧ Equipped c.options vm := by
  have hext := (d.grown.sound hc (sound_start c d.name) (always_hasAllocator d.name c.options)).2
  obtain ⟨funcs, imports, memory, memory', -, -, hmemory, hplace, hinst⟩ :=
    instantiate_eq_ok d.instantiated
  rw [(link_eq_ok.1 d.linked).2] at hmemory hplace hinst
  dsimp only [Draft.linked] at hmemory hplace hinst
  rw [hext.memory_eq] at hmemory
  obtain ⟨pages, limit, rfl, hpages, hlimit⟩ := memoryOf_eq_ok hmemory
  rw [hext.data_eq] at hplace
  obtain ⟨hfits, hsize, hlimit', hbyte⟩ := placeData_eq_ok hplace
  refine ⟨⟨memory', heapStart, 0, 0xffffffff, d.host, []⟩, ?_, ?_, ?_⟩
  · rw [hinst, hext.globals_eq]
    rfl
  · have hlast := hfits ⟨frozenOwner, ofNatBE 32 2⟩ (by simp [start, reservedData])
    have hfrozen : frozenOwner.toNat = 192 := rfl
    simp only [length_ofNatBE, Memory.size, Memory.zeros, Array.size_replicate, pageSize,
      hfrozen] at hlast
    have hlimits : d.engine.pageLimit ≤ maxPages := by
      unfold Engine.pageLimit
      split
      · exact le_rfl
      · exact d.limit_le
    simp only [Memory.zeros, Array.size_replicate] at hsize hlimit'
    have htop : 320 ≤ memory'.pages.size * 65536 := by omega
    exact ⟨UInt32.le_refl _, htop, hsize ▸ hlimit' ▸ hpages, hlimit' ▸ hlimit.trans hlimits⟩
  · change Fitted c.options memory'.byte
    rw [hbyte, byte_zeros]
    exact fitted_reservedData c.options

/-! ## A sample -/

namespace Purse

def context : Context := ⟨Codec.Purse.registry, {}⟩

/-- A module that can derive slots, step over them, and keep purses. -/
def tasks : List Task :=
  [.deriveSlot, .stepSlot, .order (.save Codec.Purse.purse.id []),
   .order (.read Codec.Purse.purse.id []), .order (.delete Codec.Purse.purse.id [])]

/-- An instance of the module. -/
def IsSample (d : Deployment context) : Prop :=
  d.name = "purse" ∧ d.assembly = perform context (start "purse" {}) tasks

/-- Memory of the new instance has not grown as far as addresses reach. -/
def roomy : { d : Deployment context // IsSample d ∧ d.inst.store.memory.pages.size ≤ 65535 } :=
  ((Deployment.build? context "purse" tasks {}).bind fun d =>
    if h : d.1.inst.store.memory.pages.size ≤ 65535 then some ⟨d.1, d.2, h⟩ else none).get
      (by decide +kernel)

theorem tasks_succeed (i : Fin 5) : (answer (((tasks.get i).make context).run
    (perform context (start "purse" {}) (tasks.take i)))).isOk := by
  decide +kernel +revert

theorem offers {d : Deployment context} (hd : IsSample d) (i : Fin 5) {x : Task}
    (hx : some (tasks.get i) = some x) : ∃ f, d.Offers (x.make context) f := by
  obtain ⟨hname, hassembly⟩ := hd
  obtain rfl := Option.some.inj hx
  rw [← take_append_drop i tasks, drop_eq_getElem_cons i.2, ← hname] at hassembly
  exact Deployment.offers_of_perform hassembly (hname ▸ tasks_succeed i)

end Purse

end MoveCodec.Storage
