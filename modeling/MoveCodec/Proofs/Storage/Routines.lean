import MoveCodec.Proofs.Codec.ReadWords
import MoveCodec.Proofs.Storage.Allocations

/-!
# Routines that other code relies on

Checks of call data rest on one routine, which lets only zero bytes pass, and slots are counted with
another one, which adds numbers of 256 bits. Both are exact in every memory: a word is loaded just
when its number has the width that is asked for, and a sum loses no carry, also where it replaces one
of its parts.
-/
namespace MoveCodec.Codec

open Wasm Assembly Machine Machine.Compute Prelude List Bytes

variable {c : Context}

/-! ## Addition -/

/-- The sum of two numbers of 256 bits goes anywhere that is apart from each of them or the same, and
nothing else changes. -/
theorem wide_addition_wraps (hc : c.registry.Made) (m : Built c Storage.addWide) (vm : Vm)
    (a b dst : UInt32) (ha : Beside a.toNat dst.toNat) (hb : Beside b.toNat dst.toNat)
    (hfit : ∀ x ∈ [a, b, dst], x.toNat + 32 ≤ vm.memory.size) :
    ∃ memory, m.Rewrites [.i32 a, .i32 b, .i32 dst] vm memory ∧
      number memory.byte dst.toNat 32 =
        (number vm.memory.byte a.toNat 32 + number vm.memory.byte b.toNat 32) % 2 ^ 256 ∧
      ∀ i, i < dst.toNat ∨ dst.toNat + 32 ≤ i → memory.byte i = vm.memory.byte i := by
  obtain ⟨memory, hrun, hsize, hlimit, hbyte⟩ := run_addWide ha hb hfit
  obtain ⟨n, hn⟩ := m.call_eq (m.serves hc Storage.makes_addWide a b dst) vm
  refine ⟨memory, ⟨hsize, hlimit, n, fun fuel hfuel => (hn fuel hfuel).1 _ _ hrun⟩, ?_,
    fun i hi => ?_⟩
  · rw [hbyte, number, view_patch_of_length (length_ofNatLE ..), toNatLE_ofNatLE]
    rfl
  · rw [hbyte, patch_outside (by rwa [length_ofNatLE])]

/-- One is added to the largest number, in its place. -/
theorem wide_addition_wraps_in_place :
    ∃ (m : Built { registry := {} } Storage.addWide) (memory : Memory),
      m.Rewrites [.i32 320, .i32 352, .i32 320] (Vm.loaded (replicate 32 255 ++ [1]) {}) memory ∧
        number memory.byte 320 32 = 0 ∧ memory.byte 352 = 1 := by
  have hbuilds : (Built.build? { registry := {} } Storage.addWide "sample" {} {}).isSome = true := by
    decide +kernel
  obtain ⟨m, -⟩ := Option.isSome_iff_exists.1 hbuilds
  have hsize : (Vm.loaded (replicate 32 255 ++ [1]) {}).memory.size = 65536 := by
    rw [Vm.loaded, Memory.size_splice]
    rfl
  obtain ⟨memory, hrewrites, hsum, houtside⟩ := wide_addition_wraps .empty m
    (Vm.loaded (replicate 32 255 ++ [1]) {}) 320 352 320 (.inl rfl) (.inr (.inr (by decide)))
    (by rw [hsize]; simp)
  rw [Vm.byte_loaded {} (by decide)] at hsum houtside
  refine ⟨m, memory, hrewrites, hsum.trans (by decide +kernel), ?_⟩
  rw [houtside 352 (by decide)]
  decide +kernel

/-! ## Words -/

/-- A function whose body loads a word that must fit in `width` bytes. -/
def wordLoader (name : String) (params locals : List ValType) (src offset width : UInt32) :
    Generate FuncId :=
  define name params [.i32] do return (locals, ← checkedWord src offset width)

/-- A function whose body stores a local as a word and loads it again. -/
def wordKeeper (name : String) (params locals : List ValType) (src offset value : UInt32) :
    Generate FuncId :=
  define name params [.i32] do
    let swap ← swap32
    let load ← checkedWord src offset 4
    return (locals, Prelude.storeWord swap src offset value ++ load)

section

variable {r : Registry} {H : Program → Prop} {name : String} {params locals : List ValType}
  {src offset width value a : UInt32} {args : List Value}

theorem makes_wordLoader (hwidth : width < 32) (hargs : args.length = params.length)
    (ha : (args ++ locals.map Value.zero)[src.toNat]? = some (.i32 a))
    (hplace : a.toNat + (offset + 28).toNat = (a + offset).toNat + 28) :
    Makes (Serves r) H (wordLoader name params locals src offset width) fun f p =>
      Computes p f args (Compute.loadWord (a + offset) width.toNat) fun x => [.i32 x] := by
  refine .define (.bind (makes_checkedWord src offset width) fun code => .pure fun p hp f hf => ?_)
  obtain ⟨s32, z, hswap, hz, rfl⟩ := hp.2
  refine ⟨_, _, _, hf, hargs.symm, fun vm => ?_⟩
  exact (sim_loadWordAt vm hswap hz hwidth offset hplace ha).mono fun _ _ he => ⟨rfl, _, he⟩

theorem makes_wordKeeper {v : UInt32} (hargs : args.length = params.length)
    (ha : (args ++ locals.map Value.zero)[src.toNat]? = some (.i32 a))
    (hv : (args ++ locals.map Value.zero)[value.toNat]? = some (.i32 v))
    (hplace : a.toNat + (offset + 28).toNat = (a + offset).toNat + 28) :
    Makes (Serves r) H (wordKeeper name params locals src offset value) fun f p =>
      Computes p f args (do
        Compute.storeWord (a + offset) v
        Compute.loadWord (a + offset) 4) fun x => [.i32 x] := by
  refine .define (.bind makes_swap32 fun swap => .bind (makes_checkedWord src offset 4) fun code =>
    .pure fun p hp f hf => ?_)
  obtain ⟨s32, z, hswap, hz, rfl⟩ := hp.2
  refine ⟨_, _, _, hf, hargs.symm, fun vm => ?_⟩
  refine .append (sim_storeWordAt vm hp.1.2 offset hplace ha hv) fun _ vm' _ => ?_
  exact (sim_loadWordAt vm' hswap hz (by decide) offset hplace ha).mono fun _ _ he => ⟨rfl, _, he⟩

/-- An address in memory and the one 28 bytes behind it do not wrap. -/
theorem toNat_place_word (hfit : a.toNat + offset.toNat + 32 ≤ 4294967296) :
    (a + offset).toNat = a.toNat + offset.toNat ∧
      a.toNat + (offset + 28).toNat = (a + offset).toNat + 28 := by
  have h28 : (28 : UInt32).toNat = 28 := rfl
  rw [toNat_add_of_lt (a := a) (by omega), toNat_add_of_lt (a := offset) (by omega), h28]
  exact ⟨rfl, by omega⟩

end

/-- The number that a word spells. -/
def wordNumber (vm : Vm) (a : Nat) : Nat := toNatBE (view vm.memory.byte a 32)

/-- A word that was stored is loaded again. -/
theorem run_storeWord_loadWord {vm : Vm} {a : UInt32} (v : UInt32)
    (hsize : vm.memory.size ≤ 4294967296) (hfit : a.toNat + 32 ≤ vm.memory.size) :
    ∃ memory seen, (do
        Compute.storeWord a v
        Compute.loadWord a 4).run vm = .ok (v, { vm with memory, seen }) ∧
      memory.byte = patch vm.memory.byte a.toNat (ofNatBE 32 v.toNat) := by
  have hwrite : a.toNat + (ofNatBE 32 v.toNat).length ≤ vm.memory.size := by rwa [length_ofNatBE]
  have hbyte := vm.memory.byte_splice_eq_patch hwrite
  generalize hm : vm.memory.splice a.toNat (ofNatBE 32 v.toNat) = memory at hbyte
  have hsize' : memory.size = vm.memory.size := by rw [← hm, Memory.size_splice]
  have hvalue : toNatBE (ofNatBE 32 v.toNat) = v.toNat := by
    rw [toNatBE_ofNatBE]
    exact Nat.mod_eq_of_lt (v.toNat_lt.trans (by decide))
  have hload := @loadWord_run { vm with memory } a 4 le_rfl (hfit.trans hsize'.ge)
    (hsize'.trans_le hsize)
  rw [hbyte, view_patch_of_length (length_ofNatBE ..), hvalue,
    if_pos (show v.toNat < 256 ^ 4 from v.toNat_lt), UInt32.ofNat_toNat] at hload
  refine ⟨memory, ⟨a.toNat, 32, false⟩ :: vm.seen, ?_, hbyte⟩
  rw [storeWord_eq, run_bind_ok (run_write hwrite), hm, hload]

/-- The check of bytes returns or traps, and in both cases leaves everything as it was. -/
theorem Built.call_requireZero (hc : c.registry.Made) (m : Built c Prelude.requireZero) {vm : Vm}
    {ptr n : UInt32} (hsize : vm.memory.size ≤ 4294967296)
    (hfit : ptr.toNat + n.toNat ≤ vm.memory.size) :
    ∃ k, ∀ fuel, k ≤ fuel → m.call fuel [.i32 ptr, .i32 n] vm.store =
      ⟨if view vm.memory.byte ptr.toNat n.toNat = replicate n.toNat 0 then .ok []
        else .error (.trap .unreachable), vm.store⟩ := by
  have hbody := m.serves hc makes_requireZeroBody
  have hstore (fuel : Nat) : (m.call (fuel + 1) [.i32 ptr, .i32 n] vm.store).store = vm.store := by
    rw [m.call_eq_invoke, (store_invoke hbody [.i32 ptr, .i32 n] rfl fuel vm).1]
    exact (frames_reading.runWith (frames_reading.runStep fuel) requireZeroBody (vm.frame _ []) rfl).symm
  obtain ⟨k, hk⟩ := m.call_eq (isRequireZero_of_body hbody ptr n) vm
  rw [requireZero_run hfit hsize] at hk
  refine ⟨k + 1, fun fuel hfuel => ?_⟩
  obtain ⟨fuel, rfl⟩ : ∃ i, fuel = i + 1 := ⟨fuel - 1, by omega⟩
  obtain ⟨hok, herror⟩ := hk (fuel + 1) (by omega)
  split
  · rename_i hzero
    exact hok () vm (if_pos hzero)
  · rename_i hzero
    exact congrArg₂ Return.mk (herror _ (if_neg hzero)) (hstore fuel)

theorem view_eq_zeros_iff {f : Nat → UInt8} {a n : Nat} :
    view f a n = replicate n 0 ↔ ∀ i < n, f (a + i) = 0 := by
  simp [view, eq_replicate_iff]

/-- Words are checked exactly. A load of a word that must fit in one, two or four bytes traps just
when the word spells a larger number, and gives the number otherwise; a word that was stored is
loaded again; and the check of any bytes in memory passes just when all are zero. -/
theorem words_checked (hc : c.registry.Made) :
    (∀ (name : String) (params locals : List ValType) (src offset width : UInt32),
      width = 1 ∨ width = 2 ∨ width = 4 →
      ∀ (m : Built c (wordLoader name params locals src offset width)) (args : List Value) (vm : Vm)
        (a : UInt32), args.length = params.length →
      (args ++ locals.map Value.zero)[src.toNat]? = some (.i32 a) →
      vm.memory.pages.size ≤ maxPages → a.toNat + offset.toNat + 32 ≤ vm.memory.size →
      ∃ n, ∀ fuel, n ≤ fuel →
        (256 ^ width.toNat ≤ wordNumber vm (a.toNat + offset.toNat) →
          (m.call fuel args vm.store).outcome = .error (.trap .unreachable)) ∧
        (wordNumber vm (a.toNat + offset.toNat) < 256 ^ width.toNat →
          m.call fuel args vm.store =
            ⟨.ok [.i32 (UInt32.ofNat (wordNumber vm (a.toNat + offset.toNat)))], vm.store⟩)) ∧
    (∀ (name : String) (params locals : List ValType) (src offset value : UInt32)
      (m : Built c (wordKeeper name params locals src offset value)) (args : List Value) (vm : Vm)
      (a v : UInt32), args.length = params.length →
      (args ++ locals.map Value.zero)[src.toNat]? = some (.i32 a) →
      (args ++ locals.map Value.zero)[value.toNat]? = some (.i32 v) →
      vm.memory.pages.size ≤ maxPages → a.toNat + offset.toNat + 32 ≤ vm.memory.size →
      ∃ memory n, memory.byte =
          patch vm.memory.byte (a.toNat + offset.toNat) (ofNatBE 32 v.toNat) ∧
        ∀ fuel, n ≤ fuel →
          m.call fuel args vm.store = ⟨.ok [.i32 v], { vm with memory }.store⟩) ∧
    ∀ (m : Built c Prelude.requireZero) (vm : Vm) (ptr n : UInt32),
      vm.memory.pages.size ≤ maxPages → ptr.toNat + n.toNat ≤ vm.memory.size →
      ∃ k, ∀ fuel, k ≤ fuel → m.call fuel [.i32 ptr, .i32 n] vm.store =
        ⟨if ∀ i < n.toNat, vm.memory.byte (ptr.toNat + i) = 0 then .ok []
          else .error (.trap .unreachable), vm.store⟩ := by
  have hbound {vm : Vm} (h : vm.memory.pages.size ≤ maxPages) : vm.memory.size ≤ 4294967296 :=
    Nat.mul_le_mul_right 65536 h
  refine ⟨fun name params locals src offset width hwidth m args vm a hargs ha hpages hfit => ?_,
    fun name params locals src offset value m args vm a v hargs ha hv hpages hfit => ?_,
    fun m vm ptr n hpages hfit => ?_⟩
  · obtain ⟨hat, hplace⟩ := toNat_place_word (hfit.trans (hbound hpages))
    have hlt : width < 32 ∧ width.toNat ≤ 4 := by rcases hwidth with rfl | rfl | rfl <;> decide
    obtain ⟨n, hn⟩ := m.call_eq (m.serves hc (makes_wordLoader hlt.1 hargs ha hplace)) vm
    rw [loadWord_run hlt.2 (hat ▸ hfit) (hbound hpages), hat] at hn
    refine ⟨n, fun fuel hfuel => ⟨fun h => (hn fuel hfuel).2 _ (if_neg h.not_gt), fun h => ?_⟩⟩
    have hcall := (hn fuel hfuel).1 _ _ (if_pos h)
    exact hcall
  · obtain ⟨hat, hplace⟩ := toNat_place_word (hfit.trans (hbound hpages))
    obtain ⟨n, hn⟩ := m.call_eq (m.serves hc (makes_wordKeeper hargs ha hv hplace)) vm
    obtain ⟨memory, seen, hrun, hbyte⟩ := run_storeWord_loadWord v (hbound hpages) (hat ▸ hfit)
    refine ⟨memory, n, hat ▸ hbyte, fun fuel hfuel => ?_⟩
    have hcall := (hn fuel hfuel).1 v _ hrun
    exact hcall
  · obtain ⟨k, hk⟩ := m.call_requireZero hc (hbound hpages) hfit
    simp only [view_eq_zeros_iff] at hk
    exact ⟨k, hk⟩

/-- A word of two bytes is loaded, and a larger one is not. -/
theorem words_checked_sample :
    ∃ (m : Built { registry := {} } (wordLoader "load" [.i32, .i32] [] 1 4 2)) (n : Nat),
      ∀ fuel, n ≤ fuel →
        m.call fuel [.i32 0, .i32 316] (Vm.loaded (replicate 30 0 ++ [2, 1]) {}).store =
          ⟨.ok [.i32 513], (Vm.loaded (replicate 30 0 ++ [2, 1]) {}).store⟩ ∧
        (m.call fuel [.i32 0, .i32 316] (Vm.loaded (replicate 29 0 ++ [1, 0, 0]) {}).store).outcome =
          .error (.trap .unreachable) := by
  have hbuilds : (Built.build? { registry := {} } (wordLoader "load" [.i32, .i32] [] 1 4 2) "sample"
      {} {}).isSome = true := by
    decide +kernel
  obtain ⟨m, -⟩ := Option.isSome_iff_exists.1 hbuilds
  have hload (bs : Bytes) := (words_checked (c := { registry := {} }) .empty).1 "load" [.i32, .i32] []
    1 4 2 (.inr (.inl rfl)) m [.i32 0, .i32 316] (Vm.loaded bs {}) 316 rfl rfl
    (by simp [Vm.loaded, Memory.zeros, maxPages]) (by rw [Vm.loaded, Memory.size_splice]; decide)
  obtain ⟨n₁, h₁⟩ := hload (replicate 30 0 ++ [2, 1])
  obtain ⟨n₂, h₂⟩ := hload (replicate 29 0 ++ [1, 0, 0])
  have hnumber (bs : Bytes) (hlen : bs.length = 32) : wordNumber (Vm.loaded bs {})
      ((316 : UInt32).toNat + (4 : UInt32).toNat) = toNatBE bs := by
    rw [wordNumber, Vm.byte_loaded {} (by omega)]
    exact congrArg toNatBE (view_patch_of_length hlen)
  rw [hnumber _ (by decide)] at h₁ h₂
  refine ⟨m, max n₁ n₂, fun fuel hfuel => ⟨(h₁ fuel ?_).2 (by decide +kernel),
    (h₂ fuel ?_).1 (by decide +kernel)⟩⟩ <;> omega

end MoveCodec.Codec
