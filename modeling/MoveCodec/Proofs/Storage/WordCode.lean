import MoveCodec.Proofs.Codec.UnpackCode
import MoveCodec.Proofs.Storage.SlotCode

/-!
# What the code for words does

A stored value that is no plain struct takes one word. Writing and reading of such a word as
computations, and the proof that the pieces of code do what these say. A piece has locals of its
own, and leaves those below them alone.
-/
namespace MoveCodec.Storage

open Wasm Wasm.Emit Machine Machine.Compute Prelude Codec List

variable {s32 rev s64 : UInt32} {form : Form} {vm : Vm}

/-- Writes a value as the word at `w`. Behind a byte string all 32 bytes are taken. -/
def storingWord : (form : Form) → (v : Value) → (w : UInt32) → Compute Unit
  | .bytes _, v, w => copy w v.word 32
  | .uid, v, w => do copy w (← load32 (← load32 v.word 0) 0) 32
  | .id, v, w => do copy w (← load32 v.word 0) 32
  | form, v, w => packing form v w 0

theorem storingWord_int (width : IntWidth) (v : Value) (w : UInt32) :
    storingWord (.int width) v w = packing (.int width) v w 0 := rfl

theorem storingWord_enum (n : Nat) (v : Value) (w : UInt32) :
    storingWord (.enum n) v w = packing (.enum n) v w 0 := rfl

theorem storingWord_address (v : Value) (w : UInt32) :
    storingWord .address v w = copy w v.word 32 := by
  change packing .address v w 0 = _
  rw [packing]

/-- Reads the word at `w`. -/
def readingWord : (form : Form) → (w : UInt32) → Compute Value
  | .int .w64, w => do return .i64 (swap64 (← load64 w 24))
  | .int .w128, w => do
    let p ← allocate 16
    reverseBlock 16 (w + 16) p
    return .i32 p
  | .int .w256, w => do
    let p ← allocate 32
    reverseBlock 32 w p
    return .i32 p
  | .address, w | .bytes _, w => .i32 <$> unpackCopy w
  | .enum _, w => do
    let p ← allocate 4
    store32 p 0 (swap32 (← load32 w 28))
    return .i32 p
  | .id, w => do .i32 <$> newCell (← unpackCopy w)
  | .uid, w => do .i32 <$> newCell (← newCell (← unpackCopy w))
  | _, w => do return .i32 (swap32 (← load32 w 28))

/-- The register of a value that was read is the register of its form. -/
theorem readingWord_wide (form : Form) (w : UInt32) :
    Gives (readingWord form w) fun v => v.wide = form.wide := by
  cases form with
  | int width =>
    cases width with
    | w8 | w16 | w32 | w64 => exact .bind fun _ => .pure rfl
    | w128 | w256 => exact .bind fun _ => .bind fun _ => .pure rfl
  | address | bytes => exact .map fun _ => rfl
  | enum => exact .bind fun _ => .bind fun _ => .bind fun _ => .pure rfl
  | id => exact .bind fun _ => .map fun _ => rfl
  | uid => exact .bind fun _ => .bind fun _ => .map fun _ => rfl
  | bool | string | vector | struct => exact .bind fun _ => .pure rfl

/-! ## Writing words -/

section

variable {p : Program} {ls : List Value} {n : Nat}

/-- The code writes the value in the local `v` as the word at the place in local 2; its own locals
start behind `v`. -/
def WritesWord (p : Program) (form : Form) (v : UInt32) (x : Piece) : Prop :=
  ∀ (ls : List Value) (n : Nat) (y : Value) (w : UInt32) (vm : Vm), v = UInt32.ofNat n → 2 < n →
    n + (x.1.length + 1) ≤ ls.length → ls.length ≤ UInt32.size → ls[n]? = some y →
    ls[2]? = some (.i32 w) → y.wide = form.wide →
    Sim p x.2 (vm.frame ls []) (Going n ls [] fun _ _ => True) ((storingWord form y w).run vm)

/-- The code reads the word at the place in local 1 into the local `v`; its own locals start
behind `v`. -/
def ReadsWord (p : Program) (form : Form) (v : UInt32) (x : Piece) : Prop :=
  ∀ (ls : List Value) (n : Nat) (w : UInt32) (vm : Vm), v = UInt32.ofNat n → 2 < n →
    n + x.1.length ≤ ls.length → ls.length ≤ UInt32.size → ls[1]? = some (.i32 w) →
    Sim p x.2 (vm.frame ls []) (Going n ls [] fun y ls' => ls'[n]? = some y)
      ((readingWord form w).run vm)

/-- The number of a local some places behind another. -/
theorem toNat_local {v : UInt32} (hv : v = UInt32.ofNat n) (k : Nat) (h : n + k < UInt32.size) :
    (v + UInt32.ofNat k).toNat = n + k := by
  rw [hv, ← UInt32.ofNat_add]
  exact UInt32.toNat_ofNat_of_lt' h

theorem toNat_local_zero {v : UInt32} (hv : v = UInt32.ofNat n) (h : n < UInt32.size) :
    v.toNat = n := by
  rw [hv]
  exact UInt32.toNat_ofNat_of_lt' h

theorem eq_i32_of_wide {v : Value} (h : v.wide = false) : ∃ a, v = .i32 a := by
  cases v with
  | i32 a => exact ⟨a, rfl⟩
  | i64 a => cases h

theorem eq_i64_of_wide {v : Value} (h : v.wide = true) : ∃ a, v = .i64 a := by
  cases v with
  | i32 a => cases h
  | i64 a => exact ⟨a, rfl⟩

variable {v : UInt32}

theorem writesWord_enum (hswap : IsSwap32 p s32) (m : Nat) :
    WritesWord p (.enum m) v ([.i32], writeTag s32 v 2 (v + 1)) := by
  intro ls n y w vm hv hn hlength hsize hy hw hwide
  obtain ⟨a, rfl⟩ := eq_i32_of_wide hwide
  simp only [length_singleton] at hlength
  have hvn := toNat_local_zero hv (by omega)
  have hnext : (v + 1).toNat = n + 1 := toNat_local hv 1 (by omega)
  have h2 : (2 : UInt32).toNat = 2 := rfl
  rw [storingWord_enum]
  refine sim_writeTag (by rwa [h2]) vm hswap (by rwa [hvn]) ?_ ?_ ?_
  · omega
  · omega
  · omega

/-- Code that needs no locals but the value and the place of the word. -/
theorem writesWord_plain {wide : Bool} {code : Code} (hform : form.wide = wide)
    (hcode : ∀ {ls : List Value} {y : Value} {w : UInt32} (vm : Vm), y.wide = wide →
      ls[(2 : UInt32).toNat]? = some (.i32 w) → ls[v.toNat]? = some y →
      Sim p code (vm.frame ls []) (Next fun _ vm' => vm'.frame ls [])
        ((storingWord form y w).run vm)) :
    WritesWord p form v ([], code) := by
  intro ls n y w vm hv hn hlength hsize hy hw hwide
  simp only [length_nil] at hlength
  have hvn := toNat_local_zero hv (by omega)
  exact .going n (hcode vm (hwide.trans hform) hw (by rwa [hvn]))

theorem writesWord_small (hswap : IsSwap32 p s32) (hform : form.wide = false)
    (hword : ∀ a w, storingWord form (.i32 a) w = Compute.storeWord w a) :
    WritesWord p form v ([], Prelude.storeWord s32 2 0 v) := by
  refine writesWord_plain hform fun vm hwide hw hy => ?_
  obtain ⟨a, rfl⟩ := eq_i32_of_wide hwide
  rw [hword]
  exact sim_storeWord vm hswap hw hy

theorem writesWord_u64 (hswap : IsSwap64 p s64) :
    WritesWord p (.int .w64) v ([], writeU64 s64 v 2) := by
  refine writesWord_plain rfl fun vm hwide hw hy => ?_
  obtain ⟨a, rfl⟩ := eq_i64_of_wide hwide
  rw [storingWord_int]
  exact sim_writeU64 hw vm hswap hy

theorem writesWord_u128 (hrev : IsReverse p 16 rev) :
    WritesWord p (.int .w128) v ([], writeU128 rev v 2) := by
  refine writesWord_plain rfl fun vm hwide hw hy => ?_
  obtain ⟨a, rfl⟩ := eq_i32_of_wide hwide
  rw [storingWord_int]
  exact sim_writeU128 hw vm hrev hy

theorem writesWord_u256 (hrev : IsReverse p 32 rev) :
    WritesWord p (.int .w256) v ([], writeU256 rev v 2) := by
  refine writesWord_plain rfl fun vm hwide hw hy => ?_
  obtain ⟨a, rfl⟩ := eq_i32_of_wide hwide
  rw [storingWord_int]
  exact sim_writeU256 hw vm hrev hy

theorem writesWord_address : WritesWord p .address v ([], copyBlock 2 0 v 0 32) := by
  refine writesWord_plain rfl fun vm hwide hw hy => ?_
  obtain ⟨a, rfl⟩ := eq_i32_of_wide hwide
  rw [storingWord_address]
  exact sim_copyBlock_here vm 32 hw hy

/-- The 32 bytes behind a byte string or an identifier. -/
theorem writesWord_bytes {tag : NativeTag}
    (htag : (∃ m : Fin 33, tag = .bytes m ∧ form = .bytes m) ∨ (tag = .uid ∧ form = .uid) ∨
      tag = .id ∧ form = .id) :
    WritesWord p form v ([.i32], [push v] ++ openIdentifier tag ++ [pop (v + 1)] ++
      copyBlock 2 0 (v + 1) 0 32) := by
  intro ls n y w vm hv hn hlength hsize hy hw hwide
  simp only [length_singleton] at hlength
  have hvn := toNat_local_zero hv (by omega)
  have hnext : (v + 1).toNat = n + 1 := toNat_local hv 1 (by omega)
  -- Once the address of the bytes is on the stack, they are copied.
  have hcopy (q : UInt32) :
      Sim p (pop (v + 1) :: copyBlock 2 0 (v + 1) 0 32) (vm.frame ls [.i32 q])
        (Going n ls [] fun _ _ => True) ((copy w q 32).run vm) := by
    rw [sim_pop, hnext]
    have hword : (ls.set (n + 1) (.i32 q))[(2 : UInt32).toNat]? = some (.i32 w) := by
      rw [getElem?_set_ne (by simp; omega)]
      exact hw
    have hq : (ls.set (n + 1) (.i32 q))[(v + 1).toNat]? = some (.i32 q) := by
      rw [hnext, getElem?_set_self (by omega)]
    refine (sim_copyBlock_here vm 32 hword hq).mono fun _ _ he => ?_
    exact ⟨_, (Kept.refl n ls).set (by omega) _, trivial, he⟩
  have hlocal : ls[v.toNat]? = some y := by rwa [hvn]
  rcases htag with ⟨m, rfl, rfl⟩ | ⟨rfl, rfl⟩ | ⟨rfl, rfl⟩
  · obtain ⟨a, rfl⟩ := eq_i32_of_wide hwide
    simp only [openIdentifier, append_nil, cons_append, nil_append, storingWord]
    rw [sim_local hlocal]
    exact hcopy a
  · obtain ⟨a, rfl⟩ := eq_i32_of_wide hwide
    simp only [openIdentifier, cons_append, nil_append, storingWord]
    rw [sim_local hlocal]
    exact .load32 fun b _ => Sim.load32 fun q _ => hcopy q
  · obtain ⟨a, rfl⟩ := eq_i32_of_wide hwide
    simp only [openIdentifier, cons_append, nil_append, storingWord]
    rw [sim_local hlocal]
    exact .load32 fun q _ => hcopy q

/-! ## Reading words -/

/-- The last steps of a piece: the value in a local is the result. -/
theorem sim_result {i : Nat} {x : UInt32} {a : UInt32} {ls' : List Value}
    (hv : v.toNat = n) (hn : n < ls.length) (hkept : Kept n ls ls') (hx : x.toNat = i)
    (hi : ls'[i]? = some (.i32 a)) :
    Sim p [push x, pop v] (vm.frame ls' []) (Going n ls [] fun y ls' => ls'[n]? = some y)
      ((pure (.i32 a) : Compute Value).run vm) := by
  rw [sim_local (by rw [hx, hi]), sim_pop, hv]
  have hlt : n < ls'.length := by rwa [hkept.length_eq]
  exact .nil ⟨_, hkept.set le_rfl _, getElem?_set_self hlt, rfl⟩

theorem readsWord_small (hswap : IsSwap32 p s32)
    (hword : ∀ w, readingWord form w = do return .i32 (swap32 (← load32 w 28))) :
    ReadsWord p form v ([.i32], [push 1, Emit.load 28, call s32, pop v]) := by
  intro ls n w vm hv hn hlength hsize hw
  simp only [length_singleton] at hlength
  have hvn := toNat_local_zero hv (by omega)
  rw [hword, sim_local hw]
  refine .load32 fun x _ => Sim.call_pure (hswap x) ?_
  rw [reverse_singleton, singleton_append, sim_pop, hvn]
  exact .nil ⟨_, (Kept.refl n ls).set le_rfl _, getElem?_set_self (by omega), rfl⟩

theorem readsWord_u64 (hswap : IsSwap64 p s64) :
    ReadsWord p (.int .w64) v ([.i64], [push 1, load64 24, call s64, pop v]) := by
  intro ls n w vm hv hn hlength hsize hw
  simp only [length_singleton] at hlength
  have hvn := toNat_local_zero hv (by omega)
  rw [readingWord, sim_local hw]
  refine .load64 fun x _ => Sim.call_pure (hswap x) ?_
  rw [reverse_singleton, singleton_append, sim_pop, hvn]
  exact .nil ⟨_, (Kept.refl n ls).set le_rfl _, getElem?_set_self (by omega), rfl⟩

section

variable (halloc : HasAllocator p)

include halloc

/-- Code that fills a new block from the word, whose address is the value. -/
theorem readsWord_block {size : UInt32} {c : Code} {g : UInt32 → UInt32 → Compute Unit}
    (hword : ∀ w, readingWord form w = do
      let q ← allocate size
      g w q
      return .i32 q)
    (hcode : ∀ {ls : List Value} {w q : UInt32} (vm : Vm), ls[(1 : UInt32).toNat]? = some (.i32 w) →
      ls[(v + 1).toNat]? = some (.i32 q) →
      Sim p c (vm.frame ls []) (Next fun _ vm' => vm'.frame ls []) ((g w q).run vm)) :
    ReadsWord p form v ([.i32, .i32], alloc size (v + 1) ++ (c ++ [push (v + 1), pop v])) := by
  intro ls n w vm hv hn hlength hsize hw
  simp only [length_cons, length_nil] at hlength
  have hvn := toNat_local_zero hv (by omega)
  have hnext : (v + 1).toNat = n + 1 := toNat_local hv 1 (by omega)
  rw [hword]
  refine .append (sim_alloc vm halloc size (v + 1)) fun q vm₁ _ => ?_
  rw [hnext]
  have hq : (ls.set (n + 1) (.i32 q))[n + 1]? = some (.i32 q) := getElem?_set_self (by omega)
  have hw' : (ls.set (n + 1) (.i32 q))[(1 : UInt32).toNat]? = some (.i32 w) := by
    rw [getElem?_set_ne (by simp; omega)]
    exact hw
  refine .append (hcode vm₁ hw' (by rw [hnext]; exact hq)) fun _ vm₂ _ => ?_
  exact sim_result hvn (by omega) ((Kept.refl n ls).set (by omega) _) hnext hq

theorem readsWord_enum (hswap : IsSwap32 p s32) (m : Nat) :
    ReadsWord p (.enum m) v ([.i32, .i32], alloc 4 (v + 1) ++
      [push (v + 1), push 1, Emit.load 28, call s32, store 0, push (v + 1), pop v]) := by
  refine readsWord_block halloc (c := [push (v + 1), push 1, Emit.load 28, call s32, store 0])
    (g := fun w q => do store32 q 0 (swap32 (← load32 w 28)))
    (fun w => by simp only [readingWord, bind_assoc]) fun vm hw hq => ?_
  rw [sim_local hq, sim_local hw]
  exact .load32 fun x _ => Sim.call_pure (hswap x) (.last (Sim.store32 fun vm₂ _ => Sim.nil rfl))

theorem readsWord_u128 (hrev : IsReverse p 16 rev) :
    ReadsWord p (.int .w128) v ([.i32, .i32], alloc 16 (v + 1) ++ addr 1 16 ++
      [push (v + 1), call rev, push (v + 1), pop v]) := by
  rw [append_assoc]
  refine readsWord_block halloc (c := addr 1 16 ++ [push (v + 1), call rev]) (fun w => rfl)
    fun vm hw hq => ?_
  rw [sim_addr hw, sim_local hq]
  exact .last (Sim.call (hrev _ _) fun _ vm₂ _ => Sim.nil rfl)

theorem readsWord_u256 (hrev : IsReverse p 32 rev) :
    ReadsWord p (.int .w256) v ([.i32, .i32], alloc 32 (v + 1) ++
      [push 1, push (v + 1), call rev, push (v + 1), pop v]) := by
  refine readsWord_block halloc (c := [push 1, push (v + 1), call rev]) (fun w => rfl)
    fun vm hw hq => ?_
  rw [sim_local hw, sim_local hq]
  exact .last (Sim.call (hrev _ _) fun _ vm₂ _ => Sim.nil rfl)

/-- A copy of the word, kept behind `v`. -/
theorem sim_wordCopy {w : UInt32} (hv : v = UInt32.ofNat n) (hn : 2 < n)
    (hlength : n + 1 < ls.length) (hsize : ls.length ≤ UInt32.size)
    (hw : ls[1]? = some (.i32 w)) :
    Sim p (alloc 32 (v + 1) ++ copyBlock (v + 1) 0 1 0 32) (vm.frame ls [])
      (Next fun q vm' => vm'.frame (ls.set (n + 1) (.i32 q)) []) ((unpackCopy w).run vm) := by
  have hnext : (v + 1).toNat = n + 1 := toNat_local hv 1 (by omega)
  rw [unpackCopy]
  refine .append (sim_alloc vm halloc 32 (v + 1)) fun q vm₁ _ => ?_
  rw [hnext]
  have hq : (ls.set (n + 1) (.i32 q))[(v + 1).toNat]? = some (.i32 q) := by
    rw [hnext, getElem?_set_self hlength]
  have hw' : (ls.set (n + 1) (.i32 q))[(1 : UInt32).toNat]? = some (.i32 w) := by
    rw [getElem?_set_ne (by simp; omega)]
    exact hw
  rw [← append_nil (copyBlock _ _ _ _ _)]
  exact .append (sim_copyBlock_here vm₁ 32 hq hw') fun _ vm₂ _ => Sim.nil rfl

/-- A pointer in a cell of its own. -/
theorem sim_box {xp xq a : UInt32} (hp : ls[xp.toNat]? = some (.i32 a))
    (hne : xq.toNat ≠ xp.toNat) (hq : xq.toNat < ls.length) :
    Sim p (box xp xq) (vm.frame ls []) (Next fun q vm' => vm'.frame (ls.set xq.toNat (.i32 q)) [])
      ((newCell a).run vm) := by
  rw [box, newCell]
  refine .append (sim_alloc vm halloc 4 xq) fun q vm₁ _ => ?_
  rw [sim_local (getElem?_set_self hq), sim_local (by rw [getElem?_set_ne hne, hp])]
  exact .store32 fun vm₂ _ => Sim.nil rfl

theorem readsWord_copy (hform : ∀ w, readingWord form w = .i32 <$> unpackCopy w) :
    ReadsWord p form v ([.i32, .i32], alloc 32 (v + 1) ++ copyBlock (v + 1) 0 1 0 32 ++
      [push (v + 1), pop v]) := by
  intro ls n w vm hv hn hlength hsize hw
  simp only [length_cons, length_nil] at hlength
  have hvn := toNat_local_zero hv (by omega)
  have hnext : (v + 1).toNat = n + 1 := toNat_local hv 1 (by omega)
  rw [hform, map_eq_pure_bind]
  refine .append (sim_wordCopy halloc hv hn (by omega) hsize hw) fun q vm₁ _ => ?_
  exact sim_result hvn (by omega) ((Kept.refl n ls).set (by omega) _) hnext
    (getElem?_set_self (by omega))

theorem readsWord_id : ReadsWord p .id v ([.i32, .i32, .i32],
    alloc 32 (v + 1) ++ copyBlock (v + 1) 0 1 0 32 ++ box (v + 1) (v + 2) ++
      [push (v + 2), pop v]) := by
  intro ls n w vm hv hn hlength hsize hw
  simp only [length_cons, length_nil] at hlength
  have hvn := toNat_local_zero hv (by omega)
  have h₁ : (v + 1).toNat = n + 1 := toNat_local hv 1 (by omega)
  have h₂ : (v + 2).toNat = n + 2 := toNat_local hv 2 (by omega)
  rw [readingWord, append_assoc]
  simp only [map_eq_pure_bind]
  refine .append (sim_wordCopy halloc hv hn (by omega) hsize hw) fun q vm₁ _ => ?_
  refine .append (sim_box halloc (by rw [h₁, getElem?_set_self (by omega)]) (by omega)
    (by rw [length_set]; omega)) fun c vm₂ _ => ?_
  rw [h₂]
  exact sim_result hvn (by omega) (((Kept.refl n ls).set (by omega) _).set (by omega) _) h₂
    (getElem?_set_self (by rw [length_set]; omega))

theorem readsWord_uid : ReadsWord p .uid v ([.i32, .i32, .i32, .i32],
    alloc 32 (v + 1) ++ copyBlock (v + 1) 0 1 0 32 ++ box (v + 1) (v + 2) ++
      box (v + 2) (v + 3) ++ [push (v + 3), pop v]) := by
  intro ls n w vm hv hn hlength hsize hw
  simp only [length_cons, length_nil] at hlength
  have hvn := toNat_local_zero hv (by omega)
  have h₁ : (v + 1).toNat = n + 1 := toNat_local hv 1 (by omega)
  have h₂ : (v + 2).toNat = n + 2 := toNat_local hv 2 (by omega)
  have h₃ : (v + 3).toNat = n + 3 := toNat_local hv 3 (by omega)
  rw [readingWord, append_assoc, append_assoc]
  simp only [map_eq_pure_bind]
  refine .append (sim_wordCopy halloc hv hn (by omega) hsize hw) fun q vm₁ _ => ?_
  refine .append (sim_box halloc (by rw [h₁, getElem?_set_self (by omega)]) (by omega)
    (by rw [length_set]; omega)) fun c vm₂ _ => ?_
  rw [h₂]
  refine .append (sim_box halloc
    (by rw [h₂, getElem?_set_self (by rw [length_set]; omega)]) (by omega)
    (by simp only [length_set]; omega)) fun d vm₃ _ => ?_
  rw [h₃]
  exact sim_result hvn (by omega)
    ((((Kept.refl n ls).set (by omega) _).set (by omega) _).set (by omega) _) h₃
    (getElem?_set_self (by simp only [length_set]; omega))

end

end

end MoveCodec.Storage
