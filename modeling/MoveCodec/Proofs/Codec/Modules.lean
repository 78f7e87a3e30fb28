import MoveCodec.Proofs.Assembly.History
import MoveCodec.Proofs.Codec.UnpackGenerators
import MoveCodec.Proofs.Codec.Words

/-!
# Modules of the codec

A module is built by requests for functions of the codec, one after another. Whatever was requested
before, the function of a request does what `Serves` has for it, in the draft and in an instance of
the linked module. So the functions for the order of bytes reverse them, also where the old and the
new place overlap, as a block is read before it is written.
-/
namespace MoveCodec

namespace Machine

/-- A state with one page of memory, in which the heap holds `bs`. -/
def Vm.loaded (bs : Bytes) (host : Host) : Vm where
  memory := (Memory.zeros 1 16).splice Prelude.heapStart.toNat bs
  top := Prelude.heapStart + UInt32.ofNat bs.length
  reader := 0
  stop := 0xffffffff
  host := host

section

variable {bs : Bytes} (host : Host) (h : bs.length ≤ 65000)

include h

theorem Vm.toNat_top_loaded : (Vm.loaded bs host).top.toNat = 320 + bs.length := by
  have hlength : (UInt32.ofNat bs.length).toNat = bs.length :=
    UInt32.toNat_ofNat_of_lt (h.trans_lt (by decide))
  have hstart : Prelude.heapStart.toNat = 320 := rfl
  rw [Vm.loaded, UInt32.toNat_add, hlength, hstart]
  omega

theorem Vm.byte_loaded :
    (Vm.loaded bs host).memory.byte = patch (fun _ => 0) 320 bs := by
  funext i
  have hzero : (Memory.zeros 1 16).byte i = 0 := by
    simp only [Memory.byte, Memory.zeros, Array.getD_eq_getD_getElem?, Array.getElem?_replicate]
    split <;> rfl
  rw [Vm.loaded, Memory.byte_splice _ _ _ (by
    simp [Memory.zeros, Memory.size, pageSize, Prelude.heapStart]; omega), hzero]
  rfl

theorem Vm.sane_loaded : (Vm.loaded bs host).Sane := by
  have htop := Vm.toNat_top_loaded host h
  refine ⟨?_, ?_, ?_, ?_⟩
  · rw [UInt32.le_iff_toNat_le, htop]
    exact Nat.le_add_right _ _
  · rw [htop, Vm.loaded, Memory.size_splice]
    simp only [Memory.zeros, Memory.size, pageSize, Array.size_replicate]
    omega
  · simp [Vm.loaded, Memory.zeros]
  · simp [Vm.loaded, Memory.zeros, maxPages]

end

theorem Compute.run_reverseBlock {vm : Vm} {n : Nat} {src dst : UInt32}
    (hsrc : src.toNat + n ≤ vm.memory.size) (hdst : dst.toNat + n ≤ vm.memory.size) :
    (reverseBlock n src dst).run vm = .ok ((), { vm with
      memory := vm.memory.splice dst.toNat (view vm.memory.byte src.toNat n).reverse }) := by
  simp [reverseBlock, read, write, run_bind, Memory.read?, hsrc, hdst]
  rfl

end Machine

namespace Codec

open Wasm Assembly Machine Prelude

/-- What can be requested. -/
inductive Product where
  | packer (t : MoveType)
  | tuplePacker (ts : List MoveType)
  | unpacker (t : MoveType)
  | tupleUnpacker (ts : List MoveType)

def Product.make (c : Context) : Product → Generate FuncId
  | .packer t => pack c t
  | .tuplePacker ts => packValues c ts
  | .unpacker t => unpack c t
  | .tupleUnpacker ts => unpackValues c ts

/-- Assemblies that come about from a fresh one by requests, of which any can fail, and by
exports. -/
inductive Reached (c : Context) : Assembly → Prop
  | start (name : String) : Reached c (Prelude.start name c.options)
  | request {a : Assembly} (x : Product) : Reached c a → Reached c (left ((x.make c).run a))
  | exported {a : Assembly} (name : String) (f : FuncId) : Reached c a →
      Reached c { a with draft := a.draft.exportFunc name f }

theorem always_hasAllocator (name : String) (o : Options) :
    Always (start name o).draft HasAllocator := by
  have hentry : (start name o).draft.funcs[allocate.toNat]? =
      some (.coded "allocate" ⟨[.i32], [.i32]⟩ allocateLocals allocateBody) := rfl
  refine (always_callee hentry rfl).imp fun p hp n => ?_
  rw [Entry.callee_coded] at hp
  exact ⟨_, _, _, hp, rfl, fun vm => sim_allocateBody n vm⟩

theorem makes_product {c : Context} (hc : c.registry.Made) (x : Product) :
    ∃ Q, Makes (Serves c.registry) HasAllocator (x.make c) Q := by
  cases x with
  | packer t => exact ⟨_, makes_pack (fun _ h => h) t⟩
  | tuplePacker ts => exact ⟨_, makes_packValues hc (fun _ h => h) ts⟩
  | unpacker t => exact ⟨_, makes_unpack (fun _ h => h) t⟩
  | tupleUnpacker ts => exact ⟨_, makes_unpackValues hc (fun _ h => h) ts⟩

/-- What was requested before does not matter. -/
theorem Reached.sound {c : Context} (hc : c.registry.Made) {a : Assembly} (h : Reached c a) :
    Sound (Serves c.registry) a ∧ Always a.draft HasAllocator := by
  induction h with
  | start name =>
    refine ⟨⟨fun kind args f hf => ?_, fun _ _ _ _ _ _ _ _ => trivial⟩,
      always_hasAllocator name c.options⟩
    cases hf
  | @request a x _ ih =>
    obtain ⟨Q, hQ⟩ := makes_product hc x
    have hends := hQ a ih.1 ih.2
    cases hrun : (x.make c).run a with
    | ok f b =>
      rw [hrun] at hends
      exact ⟨hends.1, ih.2.mono hends.2.1.keeps⟩
    | error e b =>
      rw [hrun] at hends
      exact ⟨hends.1, ih.2.mono hends.2.keeps⟩
  | @exported a name f _ ih =>
    have hkeeps : a.draft.Keeps (a.draft.exportFunc name f) := ⟨le_refl _, fun _ _ _ h _ => h⟩
    exact ⟨ih.1.grow hkeeps fun _ _ hi _ => .inl hi, ih.2.mono hkeeps⟩

/-- An instance of a module that was built by requests, the last of which gave the function
`func`. -/
structure Built (c : Context) (g : Generate FuncId) where
  before : Assembly
  reached : Reached c before
  func : FuncId
  after : Assembly
  made : g.run before = .ok func after
  fits : after.draft.Fits
  module : Module (List Instr)
  linked : after.draft.link = .ok module
  engine : Engine
  host : Host
  inst : Instance
  instantiated : instantiate engine host module = .ok inst

instance (d : Draft) : Decidable d.Fits :=
  decidable_of_iff (d.funcs.length ≤ UInt32.size ∧ ∀ e ∈ d.funcs,
      (match e with
        | .imported .. => true
        | .defined _ _ locals _ _ => decide (locals.length < UInt32.size)) = true)
    ⟨fun h => ⟨h.1, fun name t locals body finished hmem => by simpa using h.2 _ hmem⟩,
      fun h => ⟨h.1, fun e he => by
        cases e with
        | imported => rfl
        | defined name t locals body finished =>
          simpa using h.2 name t locals body finished he⟩⟩

namespace Built

variable {c : Context} {g : Generate FuncId}

def build? (c : Context) (g : Generate FuncId) (name : String) (e : Engine) (host : Host) :
    Option (Built c g) :=
  match hmade : g.run (start name c.options) with
  | .error _ _ => none
  | .ok func after =>
    if hfits : after.draft.Fits then
      match hlink : after.draft.link with
      | .error _ => none
      | .ok m =>
        match hinst : instantiate e host m with
        | .error _ => none
        | .ok inst =>
          some ⟨_, .start name, func, after, hmade, hfits, m, hlink, e, host, inst, hinst⟩
    else none

variable (m : Built c g)

def call (fuel : Nat) (args : List Value) (store : Store) : Return :=
  invoke m.inst.program fuel (m.after.draft.number m.func) args store

def program : Program := m.after.draft.program m.inst.program.types

theorem serves (hc : c.registry.Made) {Q : FuncId → Program → Prop}
    (hg : Makes (Serves c.registry) HasAllocator g Q) : Q m.func m.program := by
  obtain ⟨hsound, halloc⟩ := m.reached.sound hc
  have hends := hg m.before hsound halloc
  rw [m.made] at hends
  exact hends.2.2 m.after.draft _ (.refl _) m.fits

theorem call_eq_invoke (fuel : Nat) (args : List Value) (store : Store) :
    m.call fuel args store = invoke m.program fuel m.func args store :=
  (link_embeds m.fits m.linked m.instantiated).invoke_eq fuel m.func args store

/-- A call into the instance does what the function computes. -/
theorem call_eq {α : Type} {args : List Value} {comp : Compute α} {out : α → List Value}
    (h : Computes m.program m.func args comp out) (vm : Vm) :
    ∃ n, ∀ fuel, n ≤ fuel →
      (∀ x vm', comp.run vm = .ok (x, vm') →
        m.call fuel args vm.store = ⟨.ok (out x), vm'.store⟩) ∧
      (∀ e, comp.run vm = .error e → (m.call fuel args vm.store).outcome = .error e) := by
  obtain ⟨n, hn⟩ := h.invoke vm
  refine ⟨n, fun fuel hfuel => ?_⟩
  rw [call_eq_invoke]
  exact hn fuel hfuel

end Built

/-! ## The order of bytes -/

open List Bytes

variable {c : Context} {g : Generate FuncId}

/-- A call that returns nothing and leaves a memory of the same size. -/
structure Built.Rewrites (m : Built c g) (args : List Value) (vm : Vm) (memory : Memory) : Prop where
  size_eq : memory.size = vm.memory.size
  limit_eq : memory.limit = vm.memory.limit
  call_eq : ∃ n, ∀ fuel, n ≤ fuel → m.call fuel args vm.store = ⟨.ok [], { vm with memory }.store⟩

theorem Built.rewrites_reverse {n : UInt32} (m : Built c (reverseBlock n))
    (h : IsReverse m.program n.toNat m.func) {vm : Vm} {src dst : UInt32}
    (hsrc : src.toNat + n.toNat ≤ vm.memory.size) (hdst : dst.toNat + n.toNat ≤ vm.memory.size) :
    ∃ memory, m.Rewrites [.i32 src, .i32 dst] vm memory ∧ memory.byte =
      patch vm.memory.byte dst.toNat (view vm.memory.byte src.toNat n.toNat).reverse := by
  obtain ⟨k, hk⟩ := m.call_eq (h src dst) vm
  refine ⟨_, ⟨by simp, by simp, k, fun fuel hfuel => ?_⟩, Memory.byte_splice_eq_patch _ (by simpa)⟩
  exact (hk fuel hfuel).1 _ _ (Compute.run_reverseBlock hsrc hdst)

/-- Reversing a block where it stands twice gives every byte back. -/
theorem Built.rewrites_twice {n a : UInt32} (m : Built c (reverseBlock n))
    (h : IsReverse m.program n.toNat m.func) {vm : Vm} {memory : Memory}
    (ha : a.toNat + n.toNat ≤ vm.memory.size) (hsize : memory.size = vm.memory.size)
    (hbyte : memory.byte =
      patch vm.memory.byte a.toNat (view vm.memory.byte a.toNat n.toNat).reverse) :
    ∃ memory', m.Rewrites [.i32 a, .i32 a] { vm with memory } memory' ∧
      memory'.byte = vm.memory.byte := by
  have ha' : a.toNat + n.toNat ≤ { vm with memory }.memory.size := ha.trans_eq hsize.symm
  obtain ⟨memory', hrewrites, hbyte'⟩ := m.rewrites_reverse h ha' ha'
  refine ⟨memory', hrewrites, ?_⟩
  rw [hbyte', hbyte, view_patch_of_length (by simp), reverse_reverse, patch_patch (by simp),
    patch_view]

theorem Built.isReverse (hc : c.registry.Made) {n : UInt32} (hn : n = 16 ∨ n = 32)
    (m : Built c (reverseBlock n)) : IsReverse m.program n.toNat m.func := by
  rcases hn with rfl | rfl
  · exact m.serves hc makes_reverseBlock16
  · exact m.serves hc makes_reverseBlock32

/-- The functions for numbers return the number with its bytes reversed. Those for blocks put the
reversed bytes of one place in another, wherever the two lie, and in place they undo themselves. -/
theorem bytes_reversed (hc : c.registry.Made) :
    (∀ (m : Built c swap32) (x : UInt32) (vm : Vm), ∃ (y : UInt32) (n : Nat),
      ofNatLE 4 y.toNat = (ofNatLE 4 x.toNat).reverse ∧
      ∀ fuel, n ≤ fuel → m.call fuel [.i32 x] vm.store = ⟨.ok [.i32 y], vm.store⟩) ∧
    (∀ (m : Built c swap64) (x : UInt64) (vm : Vm), ∃ (y : UInt64) (n : Nat),
      ofNatLE 8 y.toNat = (ofNatLE 8 x.toNat).reverse ∧
      ∀ fuel, n ≤ fuel → m.call fuel [.i64 x] vm.store = ⟨.ok [.i64 y], vm.store⟩) ∧
    ∀ n : UInt32, n = 16 ∨ n = 32 → ∀ (m : Built c (reverseBlock n)) (vm : Vm) (src dst : UInt32),
      src.toNat + n.toNat ≤ vm.memory.size → dst.toNat + n.toNat ≤ vm.memory.size →
      ∃ memory, m.Rewrites [.i32 src, .i32 dst] vm memory ∧
        memory.byte =
          patch vm.memory.byte dst.toNat (view vm.memory.byte src.toNat n.toNat).reverse ∧
        (src = dst → ∃ memory', m.Rewrites [.i32 dst, .i32 dst] { vm with memory } memory' ∧
          memory'.byte = vm.memory.byte) := by
  refine ⟨fun m x vm => ?_, fun m x vm => ?_, fun n hn m vm src dst hsrc hdst => ?_⟩
  · obtain ⟨k, hk⟩ := m.call_eq (m.serves hc makes_swap32 x) vm
    exact ⟨_, k, ofNatLE_swap32 x, fun fuel hfuel => (hk fuel hfuel).1 _ _ rfl⟩
  · obtain ⟨k, hk⟩ := m.call_eq (m.serves hc makes_swap64 x) vm
    exact ⟨_, k, ofNatLE_swap64 x, fun fuel hfuel => (hk fuel hfuel).1 _ _ rfl⟩
  · have hreverse := m.isReverse hc hn
    obtain ⟨memory, hrewrites, hbyte⟩ := m.rewrites_reverse hreverse hsrc hdst
    refine ⟨memory, hrewrites, hbyte, ?_⟩
    rintro rfl
    exact m.rewrites_twice hreverse hsrc hrewrites.size_eq hbyte

/-- Sixteen bytes are moved by one, onto themselves. -/
theorem bytes_reversed_overlapping :
    ∃ (m : Built { registry := {} } (reverseBlock 16)) (memory : Memory),
      m.Rewrites [.i32 320, .i32 321] (Vm.loaded [1, 2] {}) memory ∧
        view memory.byte 320 17 = [1] ++ replicate 14 0 ++ [2, 1] := by
  have hbuilds : (Built.build? { registry := {} } (reverseBlock 16) "sample" {} {}).isSome = true := by
    decide +kernel
  obtain ⟨m, -⟩ := Option.isSome_iff_exists.1 hbuilds
  obtain ⟨memory, hrewrites, hbyte, -⟩ := (bytes_reversed (c := { registry := {} }) .empty).2.2 16
    (.inl rfl) m (Vm.loaded [1, 2] {}) 320 321 (by decide) (by decide)
  refine ⟨m, memory, hrewrites, ?_⟩
  rw [hbyte, Vm.byte_loaded {} (by decide)]
  decide +kernel

end Codec

end MoveCodec
