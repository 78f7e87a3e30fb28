import MoveCodec.Codec.Values
import MoveCodec.Proofs.Codec.Fragments

/-!
# What packers do

Each template of the packer generator does what `Codec.packing` says for its form, given that the
functions it calls do.
-/
namespace MoveCodec

open Wasm Wasm.Emit Machine Machine.Compute Prelude List

variable {fs : Forms} {rev s32 xt : UInt32}

/-- The register that the values need is a 64-bit one. -/
def Machine.Value.wide : Value → Bool
  | .i32 _ => false
  | .i64 _ => true

namespace Codec

/-- The function packs values of a form. -/
def IsPacker (p : Program) (form : Form) (f : UInt32) : Prop :=
  ∀ v w base, v.wide = form.wide →
    Computes p f [v, .i32 w, .i32 base] (packing form v w base) fun _ => []

structure Part.Packs (p : Program) (boxed : Bool) (form : Form) (part : Part) : Prop where
  boxed_eq : part.boxed = boxed
  register_eq : (part.type.register = .i64) = form.wide
  head_eq : part.head = form.headWord
  packs : IsPacker p form part.func

def PartsPack (p : Program) : List Part → Forms → (offset : UInt32) → Prop
  | [], .nil, _ => True
  | q :: qs, .cons boxed form fs, offset =>
    q.Packs p boxed form ∧ q.offset = offset ∧
      PartsPack p qs fs (offset + UInt32.ofNat (form.place boxed))
  | _, _, _ => False

section

variable {p : Program} {ls k : List Value} {rest : Code} {parts : List Part}

theorem sim_loadValue {β : Type} {final : β × Vm → Exit → Prop} {vm : Vm} {t : MoveType}
    {wide : Bool} (ht : (t.register = .i64) = wide) {a off : UInt32} {f : Value → Compute β}
    (h : ∀ x, x.wide = wide → Sim p rest (vm.frame ls (x :: k)) final ((f x).run vm)) :
    Sim p (loadValue t off :: rest) (vm.frame ls (.i32 a :: k)) final
      ((loadSlot wide a off >>= f).run vm) := by
  cases wide with
  | true =>
    have hreg : t.register = .i64 := by simpa using ht
    simp only [loadValue, hreg, if_true, loadSlot, map_eq_pure_bind, bind_assoc, pure_bind]
    exact .load64 fun x _ => h (.i64 x) rfl
  | false =>
    have hreg : t.register ≠ .i64 := by simpa using ht
    simp only [loadValue, hreg, if_false, loadSlot, map_eq_pure_bind, bind_assoc, pure_bind,
      Bool.false_eq_true]
    exact .load32 fun x _ => h (.i32 x) rfl

theorem sim_packParts {xr xd xb r d b : UInt32} (hr : ls[xr.toNat]? = some (.i32 r))
    (hd : ls[xd.toNat]? = some (.i32 d)) (hb : ls[xb.toNat]? = some (.i32 b)) :
    ∀ (parts : List Part) (fs : Forms) (place offset : UInt32) (vm : Vm),
      PartsPack p parts fs offset →
      Sim p (packParts xr xd xb place parts) (vm.frame ls k) (Next fun _ vm' => vm'.frame ls k)
        ((packingAll fs r d b place offset).run vm)
  | [], .nil, _, _, _, _ => Sim.nil rfl
  | q :: qs, .cons boxed form fs, place, offset, vm, h => by
    obtain ⟨hq, rfl, hqs⟩ := h
    have hvalue : ∀ x vm, x.wide = form.wide →
        Sim p (addr xd place ++ [push xb, call q.func] ++ packParts xr xd xb (place + q.head) qs)
          (vm.frame ls (x :: k)) (Next fun _ vm' => vm'.frame ls k)
          ((packing form x (d + place) b >>= fun _ => packingAll fs r d b
            (place + form.headWord) (q.offset + UInt32.ofNat (form.place boxed))).run vm) := by
      intro x vm hx
      rw [append_assoc, sim_addr hd]
      simp only [cons_append, nil_append]
      rw [sim_local hb]
      refine .call (hq.packs x (d + place) b hx) fun _ vm' _ => ?_
      rw [← hq.head_eq]
      exact sim_packParts hr hd hb qs fs _ _ vm' hqs
    rw [packParts, packingAll, loadPart, hq.boxed_eq]
    simp only [append_assoc] at hvalue ⊢
    rw [cons_append, sim_local hr]
    cases boxed with
    | true =>
      simp only [if_true, cons_append, nil_append, bind_assoc]
      exact .load32 fun a _ => sim_loadValue hq.register_eq fun x hx => hvalue x vm hx
    | false =>
      simp only [Bool.false_eq_true, if_false, cons_append, nil_append]
      exact sim_loadValue hq.register_eq fun x hx => hvalue x vm hx

/-! ## Words -/

/-- A body with these locals packs values of a form that are held in 32-bit registers. -/
def BodyPacks (p : Program) (form : Form) (locals : List Value) (code : Code) : Prop :=
  ∀ v w base vm, Sim p code (vm.frame (.i32 v :: .i32 w :: .i32 base :: locals) [])
    (Leaves (fun _ => []) 0) ((packing form (.i32 v) w base).run vm)

theorem sim_packSmall (hswap : IsSwap32 p s32) (v w base : UInt32) (vm : Vm) :
    Sim p (Prelude.storeWord s32 1 0 0) (vm.frame [.i32 v, .i32 w, .i32 base] [])
      (Leaves (fun _ => []) 0) ((Compute.storeWord w v).run vm) :=
  Sim.leaves_nothing (sim_storeWord vm hswap rfl rfl)

section

variable {xv xw v w base : UInt32} (hw : ls[xw.toNat]? = some (.i32 w)) (vm : Vm)

include hw

theorem sim_writeTag (hswap : IsSwap32 p s32) {n m : Nat}
    (hv : ls[xv.toNat]? = some (.i32 v)) (hm : m ≤ xt.toNat) (hne : xt.toNat ≠ xw.toNat)
    (ht : xt.toNat < ls.length) :
    Sim p (writeTag s32 xv xw xt) (vm.frame ls k) (Going m ls k fun _ _ => True)
      ((packing (.enum n) (.i32 v) w base).run vm) := by
  rw [writeTag, packing, Value.word]
  simp only [cons_append, nil_append]
  rw [sim_local hv]
  refine .load32 fun x _ => ?_
  rw [sim_pop]
  have hword : (ls.set xt.toNat (.i32 x))[xw.toNat]? = some (.i32 w) := by
    rw [getElem?_set_ne hne, hw]
  refine (sim_storeWord vm hswap hword (getElem?_set_self ht)).mono fun _ _ he => ?_
  exact ⟨_, (Kept.refl m ls).set hm _, trivial, he⟩

theorem sim_writeU64 {s64 : UInt32} (hswap : IsSwap64 p s64) {v : UInt64}
    (hv : ls[xv.toNat]? = some (.i64 v)) :
    Sim p (writeU64 s64 xv xw) (vm.frame ls k) (Next fun _ vm' => vm'.frame ls k)
      ((packing (.int .w64) (.i64 v) w base).run vm) := by
  rw [writeU64, packing, Value.long]
  refine .append (sim_fillZero_here vm (by decide) hw) fun _ vm' _ => ?_
  rw [sim_local hw, sim_local hv]
  exact .call_pure (hswap v) (Sim.last (Sim.store64 fun _ _ => Sim.nil rfl))

theorem sim_writeU128 (hrev : IsReverse p 16 rev)
    (hv : ls[xv.toNat]? = some (.i32 v)) :
    Sim p (writeU128 rev xv xw) (vm.frame ls k) (Next fun _ vm' => vm'.frame ls k)
      ((packing (.int .w128) (.i32 v) w base).run vm) := by
  rw [writeU128, packing, Value.word, append_assoc, append_assoc]
  refine .append (sim_fillZero_here vm (by decide) hw) fun _ vm' _ => ?_
  rw [cons_append, nil_append, sim_local hv, sim_addr hw]
  exact .last (Sim.call (hrev v (w + 16)) fun _ _ _ => Sim.nil rfl)

theorem sim_writeU256 (hrev : IsReverse p 32 rev)
    (hv : ls[xv.toNat]? = some (.i32 v)) :
    Sim p (writeU256 rev xv xw) (vm.frame ls k) (Next fun _ vm' => vm'.frame ls k)
      ((packing (.int .w256) (.i32 v) w base).run vm) := by
  rw [writeU256, packing, Value.word, sim_local hv, sim_local hw]
  exact .last (Sim.call (hrev v w) fun _ _ _ => Sim.nil rfl)

end

theorem sim_packAddress : BodyPacks p .address [] (copyBlock 1 0 0 0 32) :=
  fun _ _ _ vm => Sim.leaves_nothing (sim_copyBlock_here vm 32 rfl rfl)

/-- Copying the bytes behind a pointer and filling the word. -/
theorem sim_packBytes {n q w : UInt32} {v base : Value} (vm : Vm) :
    Sim p (copyBlock 1 0 3 0 n ++ fillZero 1 n (32 - n))
      (vm.frame [v, .i32 w, base, .i32 q] []) (Leaves (fun _ => []) 0)
      ((packBytes n q w).run vm) := by
  rw [packBytes]
  refine .append (sim_copyBlock_here vm n rfl rfl) fun _ vm' _ => ?_
  by_cases h : n = 32
  · subst h
    exact .nil ⟨rfl, _, rfl⟩
  · rw [if_neg h]
    refine .leaves_nothing (sim_fillZero vm' n ?_ rfl)
    intro h0
    have := UInt32.sub_add_cancel 32 n
    rw [h0, UInt32.zero_add] at this
    exact h this

theorem sim_packBytesBody {tag : NativeTag} {form : Form}
    (htag : (∃ n : Fin 33, tag = .bytes n ∧ form = .bytes n) ∨ (tag = .uid ∧ form = .uid) ∨
      tag = .id ∧ form = .id) : BodyPacks p form [.i32 0] (packBytesBody tag) := by
  intro v w base vm
  rcases htag with ⟨n, rfl, rfl⟩ | ⟨rfl, rfl⟩ | ⟨rfl, rfl⟩
  · simp [packBytesBody, openIdentifier, packing, Value.word]
    exact sim_packBytes vm
  · simp [packBytesBody, openIdentifier, packing, Value.word]
    refine .load32 fun a _ => Sim.load32 fun b _ => ?_
    simp
    exact sim_packBytes vm
  · simp [packBytesBody, openIdentifier, packing, Value.word]
    refine .load32 fun a _ => ?_
    simp
    exact sim_packBytes vm

/-! ## Tails -/

theorem sim_writeOffset (hswap : IsSwap32 p s32) {xb xw xo t b w : UInt32}
    (ht : ls[xt.toNat]? = some (.i32 t)) (hb : ls[xb.toNat]? = some (.i32 b))
    (hw : (ls.set xo.toNat (.i32 (t - b)))[xw.toNat]? = some (.i32 w))
    (ho : xo.toNat < ls.length) (vm : Vm) :
    Sim p (writeOffset s32 xt xb xw xo) (vm.frame ls k)
      (Next fun _ vm' => vm'.frame (ls.set xo.toNat (.i32 (t - b))) k)
      ((packOffset t b w).run vm) := by
  rw [writeOffset, packOffset]
  simp only [cons_append, nil_append]
  rw [sim_local ht, sim_local hb, sim_bin rfl, sim_pop]
  exact sim_storeWord vm hswap hw (by simp [ho])

theorem sim_packStringBody (halloc : HasAllocator p) (hswap : IsSwap32 p s32) :
    BodyPacks p .string (List.replicate 6 (.i32 0)) (packStringBody s32) := by
  intro v w base vm
  simp [packStringBody, packing, packString, Value.word]
  refine .load32 fun vec _ => ?_
  simp
  refine .load32 fun n _ => ?_
  simp
  refine .call (halloc _) fun tail vm₁ _ => ?_
  simp
  refine .append (sim_writeOffset hswap rfl rfl rfl (by simp) vm₁) fun _ vm₂ _ => ?_
  refine .append (sim_storeWord vm₂ hswap rfl rfl) fun _ vm₃ _ => ?_
  refine .upTo rfl rfl (by decide) (fun i vm _ => ?_) fun vm₄ _ => ?_
  · simp
    refine .load8 fun x _ => ?_
    exact .last (Sim.store8 fun _ _ => Sim.nil rfl)
  · simp
    exact .last (Sim.fillZero fun _ _ => Sim.nil ⟨rfl, _, rfl⟩)

theorem sim_packVectorBody (halloc : HasAllocator p) (hswap : IsSwap32 p s32)
    {e : Form} {elem : Part} (helem : elem.Packs p false e) (hstride : elem.offset = e.slotWord) :
    BodyPacks p (.vector e) (List.replicate 5 (.i32 0)) (packVectorBody s32 elem) := by
  intro v w base vm
  simp [packVectorBody, packing, Value.word, hstride, helem.head_eq]
  refine .load32 fun n _ => ?_
  simp
  refine .call (halloc _) fun tail vm₁ _ => ?_
  simp
  refine .append (sim_writeOffset hswap rfl rfl rfl (by simp) vm₁) fun _ vm₂ _ => ?_
  refine .append (sim_storeWord vm₂ hswap rfl rfl) fun _ vm₃ _ => ?_
  rw [sim_addr rfl]
  simp
  refine .last (Sim.upTo rfl rfl (by decide) (fun i vm _ => ?_) fun vm₄ _ =>
    Sim.nil ⟨rfl, _, rfl⟩)
  simp
  refine sim_loadValue helem.register_eq fun x hx => ?_
  simp
  exact .last (Sim.call (helem.packs x _ _ hx) fun _ _ _ => Sim.nil rfl)

theorem sim_packStaticBody (hstatic : fs.dynamic = false) (hparts : PartsPack p parts fs 0) :
    BodyPacks p (.struct fs) [] (packStaticBody parts) := by
  intro v w base vm
  simp only [packing, hstatic, Bool.false_eq_true, if_false]
  exact .leaves_nothing (sim_packParts rfl rfl rfl parts fs 0 0 vm hparts)

/-- The bytes of the heads, as the generator adds them up. -/
theorem PartsPack.headSum_eq {offset : UInt32} (h : PartsPack p parts fs offset) :
    headSum parts = UInt32.ofNat fs.heads := by
  have hfold : ∀ (parts : List Part) (fs : Forms) (offset start : UInt32),
      PartsPack p parts fs offset →
      parts.foldl (fun n q => n + q.head) start = start + UInt32.ofNat fs.heads := by
    intro parts
    induction parts with
    | nil =>
      intro fs offset start h
      cases fs with
      | nil => simp [Forms.heads]
      | cons => exact h.elim
    | cons q qs ih =>
      intro fs offset start h
      cases fs with
      | nil => exact h.elim
      | cons boxed form fs =>
        rw [foldl_cons, ih fs _ _ h.2.2, h.1.head_eq, Forms.heads, UInt32.ofNat_add,
          UInt32.add_assoc]
        rfl
  rw [headSum, hfold parts fs offset 0 h, UInt32.zero_add]

theorem sim_packDynamicBody (halloc : HasAllocator p) (hswap : IsSwap32 p s32)
    (hdynamic : fs.dynamic = true) (hparts : PartsPack p parts fs 0) :
    BodyPacks p (.struct fs) [.i32 0, .i32 0] (packDynamicBody s32 parts) := by
  intro v w base vm
  simp only [packing, hdynamic, if_true, Value.word]
  rw [packDynamicBody, hparts.headSum_eq, append_assoc]
  refine .append (sim_alloc vm halloc _ 3) fun tail vm₁ _ => ?_
  refine .append (sim_writeOffset hswap rfl rfl rfl (by simp) vm₁) fun _ vm₂ _ => ?_
  exact .leaves_nothing (sim_packParts rfl rfl rfl parts fs 0 0 vm₂ hparts)

/-! ## Tuples -/

theorem sim_packValuesBody (halloc : HasAllocator p) (hparts : PartsPack p parts fs 0)
    (r : UInt32) (vm : Vm) :
    Sim p (tupleCode 0 1 2 parts 0 [] ++ [push 1]) (vm.frame [.i32 r, .i32 0, .i32 0] [])
      (Leaves (fun a => [.i32 a]) 1) ((packingTuple fs r).run vm) := by
  rw [tupleCode, packingTuple, hparts.headSum_eq]
  simp only [append_assoc, nil_append, UInt32.add_zero, cons_append]
  refine .append (sim_alloc vm halloc _ 1) fun out vm₁ _ => ?_
  rw [sim_addr rfl, sim_pop]
  refine .append (sim_packParts rfl rfl rfl parts fs 0 0 vm₁ hparts) fun _ vm₂ _ => ?_
  rw [run_state_bind]
  simp [heapTop, -bind_pure_comp]
  refine .store32 fun vm₃ _ => ?_
  simp
  exact .nil ⟨rfl, _, rfl⟩

end

end Codec

end MoveCodec
