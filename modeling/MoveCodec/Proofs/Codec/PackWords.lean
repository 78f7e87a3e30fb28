import MoveCodec.Proofs.Codec.Words

/-!
# Packing of words

The packers of values that are neither vectors, texts nor structs come down to one write: of the
encoding of the value at the place of its head.
-/
namespace MoveCodec

open Machine Machine.Compute List Bytes

/-- A register that stands in memory is the value that is loaded. -/
theorem slotAt_false {f : Nat → UInt8} {a : Nat} {p : UInt32} (h : slotAt f false a = .i32 p) :
    UInt32.ofNat (number f a 4) = p := by
  simpa [slotAt] using h

/-- The bytes of a number in reverse order: the most significant first. -/
theorem reverse_view {f : Nat → UInt8} {a n k : Nat} (h : number f a n = k) :
    (view f a n).reverse = ofNatBE n k := by
  rw [ofNatBE, ← h, number, ofNatLE_of_length length_view]

namespace Codec

/-- A value that takes up the blocks `bs` can be packed to the word at `w`. -/
structure Placed (vm : Vm) (w : Nat) (bs : List Block) : Prop where
  sane : vm.Sane
  below : Below vm.memory.size bs
  aside : Aside w 32 bs
  le_top : w + 32 ≤ vm.top.toNat

/-- The packer of the form writes the encoding of the value to the place of its head. -/
def PacksInPlace (form : Form) : Prop :=
  ∀ ⦃x : form.Val⦄ ⦃v : Value⦄ ⦃w base : UInt32⦄ ⦃vm : Vm⦄ ⦃bs : List Block⦄,
    form.Holds false vm.memory.byte v x bs → Placed vm w.toNat bs →
    (packing form v w base).run vm = (write w.toNat (form.encode x)).run vm

section

variable {vm : Vm} {p q w : UInt32}

theorem run_loadCell (hp : p.toNat + 4 ≤ vm.memory.size)
    (hq : slotAt vm.memory.byte false p.toNat = .i32 q) : (load32 p 0).run vm = .ok (q, vm) := by
  have h0 : (0 : UInt32).toNat = 0 := rfl
  rw [run_load32 (by omega), h0, Nat.add_zero, slotAt_false hq]

/-- An element of a vector. -/
theorem run_loadElem {e : Form} {i : Nat} (hs : vm.Sane)
    (h : p.toNat + 8 + i * e.slot + e.slot ≤ vm.top.toNat) :
    (loadSlot e.wide (p + UInt32.ofNat i * e.slotWord) 8).run vm =
      .ok (slotAt vm.memory.byte e.wide (p.toNat + 8 + i * e.slot), vm) := by
  have hle := hs.top_le
  have htop := vm.top.toNat_lt
  have hslot : e.slot = slotSize e.wide := rfl
  have h8 : (8 : UInt32).toNat = 8 := rfl
  have hsrc : (p + UInt32.ofNat i * e.slotWord).toNat + (8 : UInt32).toNat =
      p.toNat + 8 + i * e.slot := by
    rw [Form.slotWord, toNat_index _ _ _ (by omega)]
    omega
  rw [run_loadSlot (by omega), hsrc]

theorem run_copy {n : UInt32} (h : p.toNat + n.toNat ≤ vm.memory.size) :
    (copy w p n).run vm = (write w.toNat (view vm.memory.byte p.toNat n.toNat)).run vm :=
  run_bind_ok (run_read h)

theorem run_reverseBlock {n : Nat} (h : p.toNat + n ≤ vm.memory.size) :
    (reverseBlock n p w).run vm =
      (write w.toNat (view vm.memory.byte p.toNat n).reverse).run vm :=
  run_bind_ok (run_read h)

theorem bind_unit (m : Compute Unit) : (m >>= fun _ => pure ()) = m := bind_pure_unit

theorem run_bind_congr {α β : Type} {m m' : Compute α} {next : α → Compute β}
    (h : m.run vm = m'.run vm) : (m >>= next).run vm = (m' >>= next).run vm := by
  rw [run_bind, run_bind, h]

/-- A second write, right behind the first, of what memory below the first one determines. -/
theorem run_write_then {m : Unit → Compute Unit} {xs ys : Bytes} (hs : vm.Sane)
    (hm : ∀ vm', vm.Becomes 0 (patch vm.memory.byte w.toNat xs) vm' →
      (m ()).run vm' = (write (w.toNat + xs.length) ys).run vm') :
    (write w.toNat xs >>= m).run vm = (write w.toNat (xs ++ ys)).run vm := by
  rw [← write_write, run_bind, run_bind]
  cases hrun : (write w.toNat xs).run vm with
  | error e => rfl
  | ok r =>
    obtain ⟨_, vm'⟩ := r
    exact hm vm' (write_becomes hs hrun).2

end

theorem packsInPlace_bool : PacksInPlace .bool := by
  rintro b v w base vm bs ⟨rfl, -⟩ -
  have hb : (if b then 1 else 0 : UInt32).toNat = b.toNat := by cases b <;> rfl
  rw [packing_bool, storeWord_eq, Form.encode, ← hb]
  rfl

theorem packsInPlace_int (width : IntWidth) : PacksInPlace (.int width) := by
  intro x v w base vm bs hx hp
  have hlt := x.isLt
  cases width with
  | w8 | w16 | w32 =>
    obtain ⟨rfl, -⟩ := hx
    have h := storeWord_eq w (UInt32.ofNat x.toNat)
    rw [toNat_ofNat_of_lt (hlt.trans_le (by decide))] at h
    rw [packing, Value.word, h, Form.encode]
  | w64 =>
    obtain ⟨rfl, -⟩ := hx
    have hc : (24 : UInt32).toNat = 24 := rfl
    have hv : (UInt64.ofNat x.toNat).toNat = x.toNat := by
      rw [UInt64.toNat_ofNat']
      exact Nat.mod_eq_of_lt hlt
    have h := write_write w.toNat (List.replicate 24 0) (ofNatBE 8 x.toNat)
    rw [← ofNatBE_of_lt hlt, length_replicate] at h
    have hrun := congrArg (fun m => m.run vm) h
    rw [packing, Value.long, zero, store64, hc, ofNatLE_swap64, hv, Form.encode]
    exact hrun
  | w128 =>
    obtain ⟨p, rfl, hnum, rfl⟩ := hx
    have hfit : p.toNat + 16 ≤ vm.memory.size := hp.below _ (mem_singleton_self _)
    have hnum : number vm.memory.byte p.toNat 16 = x.toNat := hnum
    have hc : (16 : UInt32).toNat = 16 := rfl
    have henc : Form.encode (.int .w128) x =
        List.replicate 16 0 ++ ofNatBE 16 x.toNat := by
      rw [Form.encode]
      exact ofNatBE_of_lt (a := 16) (b := 16) hlt
    rw [henc, packing, zero, hc]
    refine run_write_then hp.sane fun vm' hb => ?_
    have htop := hp.le_top
    have hend := vm.top.toNat_lt
    have hw : (w + 16).toNat = w.toNat + 16 := toNat_add_of_lt (by omega)
    -- the zeros were written beside the number
    have hview : view vm.memory.byte p.toNat 16 = view vm'.memory.byte p.toNat 16 := by
      rw [hb.byte_eq]
      exact (hp.aside.same (by simp)).part le_rfl le_rfl
    have hle := hb.size_le
    rw [length_replicate, Value.word, run_reverseBlock (by omega), ← hview, reverse_view hnum, hw]
  | w256 =>
    obtain ⟨p, rfl, hnum, rfl⟩ := hx
    have hfit : p.toNat + 32 ≤ vm.memory.size := hp.below _ (mem_singleton_self _)
    have hnum : number vm.memory.byte p.toNat 32 = x.toNat := hnum
    rw [packing, Value.word, run_reverseBlock hfit, reverse_view hnum, Form.encode]

theorem packsInPlace_address : PacksInPlace .address := by
  rintro x v w base vm bs ⟨p, rfl, hview, rfl⟩ hp
  have h32 : (32 : UInt32).toNat = 32 := rfl
  have hlen : (List.replicate 12 0 ++ Vector.toList x).length = 32 := by simp
  have hfit := hp.below _ (mem_singleton_self _)
  rw [hlen] at hview hfit
  rw [packing, Value.word, run_copy (by rwa [h32]), h32, hview, Form.encode]

theorem packsInPlace_enum (n : Nat) : PacksInPlace (.enum n) := by
  rintro i v w base vm bs ⟨p, rest, rfl, ⟨hslot, hlt, -⟩, rfl⟩ hp
  rw [packing, Value.word, run_bind_ok (run_loadCell (below_cons.1 hp.below).1 hslot),
    storeWord_eq, toNat_ofNat_of_lt hlt, Form.encode]

/-- A byte string and zeros up to a whole word. -/
theorem run_packBytes {vm : Vm} {q w n : UInt32} (hs : vm.Sane) (hw : w.toNat + 32 ≤ vm.top.toNat)
    (hn : n.toNat ≤ 32) (hq : q.toNat + n.toNat ≤ vm.memory.size) :
    (packBytes n q w).run vm = (write w.toNat (view vm.memory.byte q.toNat n.toNat ++
      List.replicate (32 - n.toNat) 0)).run vm := by
  have h32 : (32 : UInt32).toNat = 32 := rfl
  have hcopy : (packBytes n q w).run vm = (write w.toNat (view vm.memory.byte q.toNat n.toNat) >>=
      fun _ => if n = 32 then pure () else zero (w + n) (32 - n)).run vm := by
    rw [packBytes]
    exact run_bind_congr (run_copy hq)
  rw [hcopy]
  by_cases h : n = 32
  · subst h
    rw [if_pos rfl, h32, Nat.sub_self, replicate_zero, append_nil, bind_unit]
  · rw [if_neg h]
    refine run_write_then hs fun vm' hb => ?_
    have hne : n.toNat ≠ 32 := fun h' => h (UInt32.toNat_inj.mp h')
    have htop := vm.top.toNat_lt
    have hwn : (w + n).toNat = w.toNat + n.toNat := toNat_add_of_lt (by omega)
    have hsub : (32 - n).toNat = 32 - n.toNat := by
      rw [UInt32.toNat_sub_of_le _ _ (UInt32.le_iff_toNat_le.mpr (by omega)), h32]
    rw [zero, hwn, hsub, length_view]

theorem packsInPlace_bytes (n : Fin 33) : PacksInPlace (.bytes n) := by
  rintro x v w base vm bs ⟨p, rfl, hview, rfl⟩ hp
  have hlt := n.isLt
  have hn : (UInt32.ofNat n).toNat = n := toNat_ofNat_of_lt (by omega)
  have hfit := hp.below _ (mem_singleton_self _)
  rw [if_neg Bool.false_ne_true, append_nil] at hview hfit
  have hlen : (Vector.toList x).length = n.val := by simp
  rw [hlen] at hview hfit
  rw [packing, Value.word, run_packBytes hp.sane hp.le_top (by omega) (by rwa [hn]), hn, hview,
    Form.encode]

/-- Both kinds of identifiers end in a pointer to a word. -/
theorem run_packWord {vm : Vm} {w q : UInt32} {x : Word} (hs : vm.Sane)
    (hw : w.toNat + 32 ≤ vm.top.toNat)
    (hview : view vm.memory.byte q.toNat x.toList.length = x.toList)
    (hq : q.toNat + x.toList.length ≤ vm.memory.size) :
    (packBytes 32 q w).run vm = (write w.toNat x.toList).run vm := by
  have hlen : x.toList.length = 32 := by simp
  have h32 : (32 : UInt32).toNat = 32 := rfl
  rw [hlen] at hview hq
  rw [run_packBytes hs hw (by omega) hq, h32, hview, Nat.sub_self, replicate_zero,
    append_nil]

theorem packsInPlace_id : PacksInPlace .id := by
  rintro x v w base vm bs ⟨p, rest, rfl, ⟨q, hq, hview, rfl⟩, rfl⟩ hp
  have hbs := hp.below
  simp only [below_cons] at hbs
  rw [packing, Value.word, run_bind_ok (run_loadCell hbs.1 hq),
    run_packWord hp.sane hp.le_top hview hbs.2.1, Form.encode]

theorem packsInPlace_uid : PacksInPlace .uid := by
  rintro x v w base vm bs ⟨p, rest, rfl, ⟨q, rest', hq, ⟨r, hr, hview, rfl⟩, rfl⟩, rfl⟩ hp
  have hbs := hp.below
  simp only [below_cons] at hbs
  rw [packing, Value.word, run_bind_ok (run_loadCell hbs.1 hq),
    run_bind_ok (run_loadCell hbs.2.1 hr), run_packWord hp.sane hp.le_top hview hbs.2.2.1,
    Form.encode]

end Codec

end MoveCodec
