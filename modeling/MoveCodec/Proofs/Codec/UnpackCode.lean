import MoveCodec.Proofs.Codec.PackCode

/-!
# What unpackers do

Each template of the unpacker generator does what `Codec.unpacking` says for its form, given that
the functions it calls do.
-/
namespace MoveCodec.Codec

open Wasm Wasm.Emit Machine Machine.Compute Prelude List

variable {fs : Forms} {more : List Value} {q rev s32' size z' : UInt32} {x : Value}
  {parts : List Part}

/-- The function unpacks values of a form. -/
def IsUnpacker (p : Program) (form : Form) (f : UInt32) : Prop :=
  ∀ r base, Computes p f [.i32 r, .i32 base] (unpacking form r base) fun v => [v]

structure Part.Unpacks (p : Program) (form : Form) (part : Part) : Prop where
  register_eq : (part.type.register = .i64) = form.wide
  head_eq : part.head = form.headWord
  unpacks : IsUnpacker p form part.func

def PartsUnpack (p : Program) : List Part → Forms → (offset : UInt32) → Prop
  | [], .nil, _ => True
  | q :: qs, .cons boxed form fs, offset =>
    boxed = false ∧ q.Unpacks p form ∧ q.offset = offset ∧
      PartsUnpack p qs fs (offset + form.slotWord)
  | _, _, _ => False

/-- A decoded value is held in the register of its form. -/
theorem unpacking_wide (form : Form) (r base : UInt32) :
    Gives (unpacking form r base) fun v => v.wide = form.wide := by
  cases form with
  | bool => exact .bind fun _ => .bind fun _ => .pure rfl
  | int w =>
    cases w with
    | w8 | w16 | w32 => exact .map fun _ => rfl
    | w64 => exact .bind fun _ => .bind fun _ => .bind fun _ => .pure rfl
    | w128 => exact .bind fun _ => .bind fun _ => .bind fun _ => .bind fun _ => .pure rfl
    | w256 => exact .bind fun _ => .bind fun _ => .bind fun _ => .pure rfl
  | address | enum | bytes => exact .bind fun _ => .bind fun _ => .map fun _ => rfl
  | string => exact .map fun _ => rfl
  | uid => exact fun _ _ _ h => by simp [unpacking] at h
  | id => exact .bind fun _ => .bind fun _ => .map fun _ => rfl
  | vector e => exact .bind fun _ => .bind fun _ => .bind fun _ => .bind fun _ => .pure rfl
  | struct fields =>
    rw [unpacking]
    split
    · exact .bind fun _ => .bind fun _ => .bind fun _ => .pure rfl
    · exact .bind fun _ => .bind fun _ => .pure rfl

section

variable {p : Program} {ls k : List Value} {rest : Code}

theorem sim_storeValue {β : Type} {final : β × Vm → Exit → Prop} {vm : Vm} {t : MoveType}
    {wide : Bool} (ht : (t.register = .i64) = wide) {a off : UInt32} {v : Value}
    (hv : v.wide = wide) {f : Unit → Compute β}
    (h : ∀ vm', Sim p rest (vm'.frame ls k) final ((f ()).run vm')) :
    Sim p (storeValue t off :: rest) (vm.frame ls (v :: .i32 a :: k)) final
      ((storeSlot wide a off v >>= f).run vm) := by
  cases wide with
  | true =>
    have hreg : t.register = .i64 := by simpa using ht
    obtain ⟨x, rfl⟩ : ∃ x, v = .i64 x := by
      cases v with
      | i32 x => simp [Value.wide] at hv
      | i64 x => exact ⟨x, rfl⟩
    simp only [storeValue, hreg, if_true, storeSlot, Value.long]
    exact .store64 fun vm' _ => h vm'
  | false =>
    have hreg : t.register ≠ .i64 := by simpa using ht
    obtain ⟨x, rfl⟩ : ∃ x, v = .i32 x := by
      cases v with
      | i32 x => exact ⟨x, rfl⟩
      | i64 x => simp [Value.wide] at hv
    simp only [storeValue, hreg, if_false, storeSlot, Value.word, Bool.false_eq_true]
    exact .store32 fun vm' _ => h vm'

theorem sim_unpackParts {xr xs xb r s b : UInt32} (hr : ls[xr.toNat]? = some (.i32 r))
    (hs : ls[xs.toNat]? = some (.i32 s)) (hb : ls[xb.toNat]? = some (.i32 b)) :
    ∀ (parts : List Part) (fs : Forms) (place offset : UInt32) (vm : Vm),
      PartsUnpack p parts fs offset →
      Sim p (unpackParts xr xs xb place parts) (vm.frame ls k) (Next fun _ vm' => vm'.frame ls k)
        ((unpackingAll fs r s b place offset).run vm)
  | [], .nil, _, _, _, _ => Sim.nil rfl
  | q :: qs, .cons boxed form fs, place, offset, vm, h => by
    obtain ⟨rfl, hq, rfl, hqs⟩ := h
    rw [unpackParts, unpackingAll]
    simp only [append_assoc, cons_append, nil_append]
    rw [sim_local hr, sim_addr hs, sim_local hb]
    refine .call (hq.unpacks (s + place) b) fun x vm₁ hx => ?_
    have hwide := unpacking_wide form (s + place) b vm x vm₁ hx
    refine sim_storeValue hq.register_eq hwide fun vm₂ => ?_
    rw [← hq.head_eq]
    exact sim_unpackParts hr hs hb qs fs _ _ vm₂ hqs

/-! ## Words -/

/-- A body with these locals unpacks values of a form. -/
def BodyUnpacks (p : Program) (form : Form) (locals : List Value) (code : Code) : Prop :=
  ∀ r base vm, Sim p code (vm.frame (.i32 r :: .i32 base :: locals) []) (Leaves (fun v => [v]) 1)
    ((unpacking form r base).run vm)

section

variable {s32 z : UInt32} (hswap : IsSwap32 p s32) (hz : IsRequireZero p z)

include hswap hz

theorem sim_unpackBoolBody :
    BodyUnpacks p .bool [.i32 0] (unpackBoolBody (Prelude.loadWord s32 z 0 0 1)) := by
  intro r base vm
  rw [unpackBoolBody, unpacking]
  refine .append (sim_loadWord vm hswap hz (by decide) rfl) fun x vm₁ _ => ?_
  rw [sim_keep, sim_const, sim_rel]
  refine .trapIf_ofBool fun _ => ?_
  rw [sim_local rfl]
  exact .nil ⟨rfl, _, rfl⟩

/-- A word of one, two or four bytes. -/
theorem sim_unpackSmall {w : IntWidth} {width : UInt32} (hw : width = 1 ∧ w = .w8 ∨
    width = 2 ∧ w = .w16 ∨ width = 4 ∧ w = .w32) :
    BodyUnpacks p (.int w) [] (Prelude.loadWord s32 z 0 0 width) := by
  intro r base vm
  have hword : ∀ width : UInt32, width < 32 → Sim p (Prelude.loadWord s32 z 0 0 width)
      (vm.frame [.i32 r, .i32 base] []) (Leaves (fun v => [v]) 1)
      ((Value.i32 <$> Compute.loadWord r width.toNat).run vm) := by
    intro width hwidth
    rw [map_eq_pure_bind, ← append_nil (Prelude.loadWord s32 z 0 0 width)]
    exact .append (sim_loadWord vm hswap hz hwidth rfl) fun _ _ _ => Sim.nil ⟨rfl, _, rfl⟩
  rcases hw with ⟨rfl, rfl⟩ | ⟨rfl, rfl⟩ | ⟨rfl, rfl⟩
  · exact hword 1 (by decide)
  · exact hword 2 (by decide)
  · exact hword 4 (by decide)

theorem sim_unpackTagBody (halloc : HasAllocator p) (n : Nat) :
    BodyUnpacks p (.enum n) [.i32 0, .i32 0]
      (unpackTagBody (Prelude.loadWord s32 z 0 0 1) (UInt32.ofNat n)) := by
  intro r base vm
  rw [unpackTagBody, unpacking]
  simp only [newCell, map_bind, map_pure, append_assoc, cons_append, nil_append]
  refine .append (sim_loadWord vm hswap hz (by decide) rfl) fun x vm₁ _ => ?_
  rw [sim_keep, sim_const, sim_rel]
  refine .trapIf_ofBool fun _ => ?_
  refine .append (sim_alloc vm₁ halloc 4 3) fun q vm₂ _ => ?_
  rw [sim_local rfl, sim_local rfl]
  refine .store32 fun vm₃ _ => ?_
  rw [sim_local rfl]
  exact .nil ⟨rfl, _, rfl⟩

omit hswap

theorem sim_unpackU64Body {s64 : UInt32} (hswap : IsSwap64 p s64) :
    BodyUnpacks p (.int .w64) [] (unpackU64Body (requireZeroAt z 0 0 24) s64) := by
  intro r base vm
  rw [unpackU64Body, unpacking]
  refine sim_look (Sim.append (sim_requireZero_here _ (fun _ => hz) rfl) fun _ vm₁ _ => ?_)
  rw [sim_local rfl]
  exact .load64 fun x _ => Sim.call_pure (hswap x) (Sim.nil ⟨rfl, _, rfl⟩)

theorem sim_unpackU128Body (halloc : HasAllocator p) (hrev : IsReverse p 16 rev) :
    BodyUnpacks p (.int .w128) [.i32 0] (unpackU128Body (requireZeroAt z 0 0 16) rev) := by
  intro r base vm
  rw [unpackU128Body, unpacking]
  simp only [append_assoc]
  refine sim_look (Sim.append (sim_requireZero_here _ (fun _ => hz) rfl) fun _ vm₁ _ => ?_)
  refine .append (sim_alloc vm₁ halloc 16 2) fun q vm₂ _ => ?_
  rw [sim_addr rfl, sim_local rfl]
  refine .call (hrev (r + 16) q) fun _ vm₃ _ => ?_
  rw [sim_local rfl]
  exact .nil ⟨rfl, _, rfl⟩

omit hz

section

variable (halloc : HasAllocator p)

include halloc

theorem sim_unpackU256Body (hrev : IsReverse p 32 rev) :
    BodyUnpacks p (.int .w256) [.i32 0] (unpackU256Body rev) := by
  intro r base vm
  rw [unpackU256Body, unpacking]
  refine sim_look (Sim.append (sim_alloc _ halloc 32 2) fun q vm₂ _ => ?_)
  rw [sim_local rfl, sim_local rfl]
  refine .call (hrev r q) fun _ vm₃ _ => ?_
  rw [sim_local rfl]
  exact .nil ⟨rfl, _, rfl⟩

theorem sim_unpackCopy (r base : UInt32) (vm : Vm) :
    Sim p (alloc 32 2 ++ copyBlock 2 0 0 0 32 ++ [push 2]) (vm.frame [.i32 r, .i32 base, .i32 0] [])
      (Leaves (fun v => [v]) 1) ((Value.i32 <$> unpackCopy r).run vm) := by
  simp only [unpackCopy, map_bind, map_pure, append_assoc]
  refine .append (sim_alloc vm halloc 32 2) fun q vm₁ _ => ?_
  refine .append (sim_copyBlock_here vm₁ 32 rfl rfl) fun _ vm₂ _ => ?_
  rw [sim_local rfl]
  exact .nil ⟨rfl, _, rfl⟩

theorem sim_unpackAddressBody (hz : IsRequireZero p z) :
    BodyUnpacks p .address [.i32 0] (unpackCopyBody (requireZeroAt z 0 0 12)) := by
  intro r base vm
  rw [unpackCopyBody, unpacking]
  simp only [append_assoc]
  refine sim_look (Sim.append (sim_requireZero_here _ (fun _ => hz) rfl) fun _ vm₁ _ => ?_)
  have h := sim_unpackCopy halloc r base vm₁
  rwa [append_assoc] at h

theorem sim_unpackBytesBody (n : Fin 33)
    (hz : 32 - UInt32.ofNat n ≠ 0 → IsRequireZero p z) :
    BodyUnpacks p (.bytes n) [.i32 0]
      (unpackCopyBody (requireZeroAt z 0 (UInt32.ofNat n) (32 - UInt32.ofNat n))) := by
  intro r base vm
  have hlt := n.isLt
  have hof : (UInt32.ofNat n.val).toNat = n := by
    rw [UInt32.toNat_ofNat']
    omega
  have hn : (32 : Nat) - n = (32 - UInt32.ofNat n.val).toNat := by
    have hle : UInt32.ofNat n.val ≤ 32 := by
      rw [UInt32.le_iff_toNat_le, hof]
      simp
      omega
    rw [UInt32.toNat_sub_of_le _ _ hle, hof]
    rfl
  rw [unpackCopyBody, unpacking, hn]
  simp only [append_assoc]
  refine sim_look (Sim.append (sim_requireZeroAt _ hz (UInt32.ofNat n) rfl) fun _ vm₁ _ => ?_)
  have h := sim_unpackCopy halloc r base vm₁
  rwa [append_assoc] at h

theorem sim_unpackIdentifierBody :
    BodyUnpacks p .id [.i32 0, .i32 0] unpackIdentifierBody := by
  intro r base vm
  rw [unpackIdentifierBody, unpacking]
  simp only [unpackCopy, newCell, map_bind, map_pure, bind_assoc, pure_bind, append_assoc]
  refine sim_look (Sim.append (sim_alloc _ halloc 32 2) fun q vm₁ _ => ?_)
  refine .append (sim_copyBlock_here vm₁ 32 rfl rfl) fun _ vm₂ _ => ?_
  refine .append (sim_alloc vm₂ halloc 4 3) fun c vm₃ _ => ?_
  rw [sim_local rfl, sim_local rfl]
  refine .store32 fun vm₄ _ => ?_
  rw [sim_local rfl]
  exact .nil ⟨rfl, _, rfl⟩

end

end

/-! ## Tails -/

section

variable {s32 z : UInt32} (hswap : IsSwap32 p s32) (hz : IsRequireZero p z) (r base : UInt32)

include hswap hz

theorem sim_followOffset (vm : Vm) :
    Sim p (followOffset (Prelude.loadWord s32 z 0 0 4) 1 2)
      (vm.frame (.i32 r :: .i32 base :: x :: more) [])
      (Next fun q vm' => vm'.frame (.i32 r :: .i32 base :: .i32 q :: more) [])
      ((follow r base).run vm) := by
  rw [followOffset, follow]
  refine .append (sim_loadWord vm hswap hz (by decide) rfl) fun y vm₁ _ => ?_
  rw [sim_local rfl, sim_bin rfl, sim_keep, sim_local rfl, sim_rel]
  refine .trapIf_ofBool fun _ => ?_
  rw [sim_local rfl, callEnd, sim_pushStop, sim_rel, run_state_bind]
  refine .trapIf_ofBool fun _ => ?_
  rw [sim_pushStop, sim_local rfl, sim_bin rfl, sim_const, sim_rel, run_state_bind]
  refine .trapIf_ofBool fun _ => ?_
  exact sim_look (Sim.nil rfl)

theorem sim_boundedLength (vm : Vm) :
    Sim p (boundedLength (Prelude.loadWord s32 z 2 0 4) 3)
      (vm.frame (.i32 r :: .i32 base :: .i32 q :: x :: more) [])
      (Next fun n vm' => vm'.frame (.i32 r :: .i32 base :: .i32 q :: .i32 n :: more) [])
      ((lengthAt q).run vm) := by
  rw [boundedLength, lengthAt]
  refine .append (sim_loadWord vm hswap hz (by decide) rfl) fun y vm₁ _ => ?_
  rw [sim_keep, sim_const, sim_rel]
  refine .trapIf_ofBool fun _ => ?_
  exact .nil rfl

omit hswap hz

/-- The block of a vector with its length and capacity. -/
theorem sim_newVector (halloc : HasAllocator p) {n slot : UInt32}
    (vm : Vm) :
    Sim p ([const 8, push 3, const slot, mul, add, call allocate, pop 4] ++ vectorHeader 4 3)
      (vm.frame (.i32 r :: .i32 base :: .i32 q :: .i32 n :: x :: more) [])
      (Next fun vec vm' =>
        vm'.frame (.i32 r :: .i32 base :: .i32 q :: .i32 n :: .i32 vec :: more) [])
      ((newVector n slot).run vm) := by
  rw [newVector, vectorHeader]
  simp only [cons_append, nil_append]
  rw [sim_const, sim_local rfl, sim_const, sim_bin rfl, sim_bin rfl]
  refine .call (halloc _) fun vec vm₁ _ => ?_
  rw [reverse_singleton, singleton_append, sim_pop, sim_local rfl, sim_local rfl]
  refine .store32 fun vm₂ _ => ?_
  rw [sim_local rfl, sim_local rfl]
  exact .store32 fun vm₃ _ => Sim.nil rfl

end

section

variable (halloc : HasAllocator p) {s32 z : UInt32} (hswap : IsSwap32 p s32)
  (hz : IsRequireZero p z)

include halloc hswap hz

theorem sim_unpackStringBody (hswap' : IsSwap32 p s32')
    (hz' : IsRequireZero p z') :
    BodyUnpacks p .string [.i32 0, .i32 0, .i32 0, .i32 0, .i32 0]
      (unpackStringBody (Prelude.loadWord s32 z 0 0 4) (Prelude.loadWord s32' z' 2 0 4)) := by
  intro r base vm
  have hcode : unpackStringBody (Prelude.loadWord s32 z 0 0 4) (Prelude.loadWord s32' z' 2 0 4) =
      followOffset (Prelude.loadWord s32 z 0 0 4) 1 2 ++
      (boundedLength (Prelude.loadWord s32' z' 2 0 4) 3 ++
      (([const 8, push 3, const 4, mul, add, call allocate, pop 4] ++ vectorHeader 4 3) ++
      (upTo 5 3
        [push 4, push 5, const 4, mul, add, push 2, push 5, add, Emit.load8 32, store 8] ::
      (alloc 4 6 ++ [push 6, push 4, store 0, push 6])))) := by
    simp [unpackStringBody]
  rw [hcode, unpacking, unpackString]
  simp only [newCell, map_bind, map_pure]
  refine .append (sim_followOffset hswap hz r base vm) fun q vm₁ _ => ?_
  refine .append (sim_boundedLength hswap' hz' r base vm₁) fun n vm₂ _ => ?_
  refine .append (sim_newVector r base halloc vm₂) fun vec vm₃ _ => sim_look ?_
  refine .upTo rfl rfl (by decide) (fun i vm _ => ?_) fun vm₄ _ => ?_
  · simp
    refine .load8 fun x _ => ?_
    exact .last (Sim.store32 fun _ _ => Sim.nil rfl)
  · refine .append (sim_alloc vm₄ halloc 4 6) fun c vm₅ _ => ?_
    rw [sim_local rfl, sim_local rfl]
    refine .store32 fun vm₆ _ => ?_
    rw [sim_local rfl]
    exact .nil ⟨rfl, _, rfl⟩

theorem sim_unpackVectorBody (hswap' : IsSwap32 p s32')
    (hz' : IsRequireZero p z') {e : Form} {elem : Part} (helem : elem.Unpacks p e)
    (hstride : elem.offset = e.slotWord) :
    BodyUnpacks p (.vector e) [.i32 0, .i32 0, .i32 0, .i32 0, .i32 0]
      (unpackVectorBody (Prelude.loadWord s32 z 0 0 4) (Prelude.loadWord s32' z' 2 0 4) elem) := by
  intro r base vm
  have hcode : unpackVectorBody (Prelude.loadWord s32 z 0 0 4)
      (Prelude.loadWord s32' z' 2 0 4) elem =
      followOffset (Prelude.loadWord s32 z 0 0 4) 1 2 ++
      (boundedLength (Prelude.loadWord s32' z' 2 0 4) 3 ++
      (([const 8, push 3, const e.slotWord, mul, add, call allocate, pop 4] ++ vectorHeader 4 3) ++
      (addr 2 32 ++ [pop 5, upTo 6 3
        [push 4, push 6, const e.slotWord, mul, add, push 5, push 6, const e.headWord, mul, add,
         push 5, call elem.func, storeValue elem.type 8], push 4]))) := by
    simp [unpackVectorBody, hstride, helem.head_eq]
  rw [hcode, unpacking]
  refine .append (sim_followOffset hswap hz r base vm) fun q vm₁ _ => ?_
  refine .append (sim_boundedLength hswap' hz' r base vm₁) fun n vm₂ _ => ?_
  refine .append (sim_newVector r base halloc vm₂) fun vec vm₃ _ => ?_
  rw [sim_addr rfl, sim_pop]
  refine .upTo rfl rfl (by decide) (fun i vm _ => ?_) fun vm₄ _ => ?_
  · simp
    refine .call (helem.unpacks _ _) fun x vm' hx => ?_
    exact .last (sim_storeValue helem.register_eq (unpacking_wide e _ _ _ _ _ hx)
      fun _ => Sim.nil rfl)
  · rw [sim_local rfl]
    exact .nil ⟨rfl, _, rfl⟩

theorem sim_unpackDynamicBody (hdynamic : fs.dynamic = true) (hparts : PartsUnpack p parts fs 0)
    (hsize : size = UInt32.ofNat fs.record) : BodyUnpacks p (.struct fs) [.i32 0, .i32 0]
      (unpackDynamicBody (Prelude.loadWord s32 z 0 0 4) size parts) := by
  intro r base vm
  simp only [unpacking, hdynamic, if_true]
  rw [unpackDynamicBody, hsize]
  simp only [append_assoc]
  refine .append (sim_followOffset hswap hz r base vm) fun q vm₁ _ => ?_
  refine .append (sim_alloc vm₁ halloc _ 3) fun c vm₂ _ => ?_
  refine .append (sim_unpackParts rfl rfl rfl parts fs 0 0 vm₂ hparts) fun _ vm₃ _ => ?_
  rw [sim_local rfl]
  exact .nil ⟨rfl, _, rfl⟩

omit hswap hz

theorem sim_unpackStaticBody (hstatic : fs.dynamic = false) (hparts : PartsUnpack p parts fs 0)
    (hsize : size = UInt32.ofNat fs.record) :
    BodyUnpacks p (.struct fs) [.i32 0] (unpackStaticBody size parts) := by
  intro r base vm
  simp only [unpacking, hstatic, Bool.false_eq_true, if_false]
  rw [unpackStaticBody, hsize]
  simp only [append_assoc]
  refine .append (sim_alloc vm halloc _ 2) fun c vm₂ _ => ?_
  refine .append (sim_unpackParts rfl rfl rfl parts fs 0 0 vm₂ hparts) fun _ vm₃ _ => ?_
  rw [sim_local rfl]
  exact .nil ⟨rfl, _, rfl⟩

end

end

end MoveCodec.Codec
