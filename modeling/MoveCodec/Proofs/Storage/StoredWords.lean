import MoveCodec.Proofs.Codec.PackWords
import MoveCodec.Proofs.Codec.UnpackSpec
import MoveCodec.Proofs.Storage.SlotArithmetic

/-!
# Words of values

A stored value takes one word for each part that is no plain struct, in the order of the fields. The
word of such a part is its encoding. Writing a word and reading it gives the part back.
-/
namespace MoveCodec

open Machine Machine.Compute Codec Prelude List Bytes

/-! ## Words -/

/-- The values of the form take one word. -/
def Form.single : Form → Bool
  | .string | .vector _ | .struct _ => false
  | _ => true

def Form.word (form : Form) (x : form.Val) : Word := Word.ofBytes (form.encode x)

theorem Form.toList_word {form : Form} (h : form.single = true) (x : form.Val) :
    (form.word x).toList = form.encode x := by
  apply Word.toList_ofBytes
  cases form with
  | string | vector | struct => cases h
  | _ => exact Form.length_encode _ x rfl

mutual

def Form.words : (form : Form) → form.Val → List Word
  | .struct fields, x => fields.words x
  | form, x => [form.word x]

def Forms.words : (fs : Forms) → fs.Val → List Word
  | .nil, _ => []
  | .cons _ f fs, (x : f.Val × fs.Val) => f.words x.1 ++ fs.words x.2

end

theorem Form.words_single {form : Form} (h : form.single = true) (x : form.Val) :
    form.words x = [form.word x] := by
  cases form with
  | struct => cases h
  | _ =>
    rw [Form.words]
    nofun

mutual

/-- What the code keeps of a value in 32 bits fits there: the sizes of records and the numbers of
variants. -/
def Form.Narrow : (form : Form) → form.Val → Prop
  | .enum _, (i : Fin _) => i.val < UInt32.size
  | .struct fields, x => fields.record < UInt32.size ∧ fields.Narrow x
  | .bool, _ | .int _, _ | .address, _ | .string, _ | .bytes _, _ | .uid, _ | .id, _
  | .vector _, _ => True

def Forms.Narrow : (fs : Forms) → fs.Val → Prop
  | .nil, _ => True
  | .cons _ f fs, (x : f.Val × fs.Val) => f.Narrow x.1 ∧ fs.Narrow x.2

end

mutual

/-- Bytes of the heap that a value takes up when it is read from storage. -/
def Form.demand : Form → Nat
  | .int .w128 => 16
  | .int .w256 => 32
  | .address | .bytes _ => 32
  | .enum _ => 4
  | .id => 36
  | .uid => 40
  | .struct fields => fields.record + fields.demand
  | _ => 0

def Forms.demand : Forms → Nat
  | .nil => 0
  | .cons _ f fs => f.demand + fs.demand

end

/-- The blocks lie between two addresses. -/
def Within (lo hi : Nat) (bs : List Block) : Prop := ∀ b ∈ bs, lo ≤ b.start ∧ b.stop ≤ hi

section

variable {lo hi : Nat} {b : Block} {bs cs : List Block}

theorem within_cons : Within lo hi (b :: bs) ↔ (lo ≤ b.start ∧ b.stop ≤ hi) ∧ Within lo hi bs :=
  forall_mem_cons

theorem within_append : Within lo hi (bs ++ cs) ↔ Within lo hi bs ∧ Within lo hi cs :=
  forall_mem_append

theorem Within.mono {lo' hi' : Nat} (h : Within lo hi bs) (hlo : lo' ≤ lo) (hhi : hi ≤ hi') :
    Within lo' hi' bs :=
  fun b hb => ⟨hlo.trans (h b hb).1, (h b hb).2.trans hhi⟩

end

mutual

/-- A value that is held in memory is narrow. -/
theorem Form.Holds.narrow {tight : Bool} {f : Nat → UInt8} {lo hi : Nat} (hhi : hi < UInt32.size) :
    ∀ {form : Form} {v : Value} {x : form.Val} {bs : List Block}, form.Holds tight f v x bs →
      Within lo hi bs → form.Narrow x
  | .enum _, _, _, _, ⟨_, _, _, ⟨_, hlt, _⟩, _⟩, _ => by
    rw [Form.Narrow]
    exact hlt
  | .struct fields, _, _, _, ⟨p, rest, _, h, hbs⟩, hwithin => by
    rw [hbs, within_cons] at hwithin
    have hstop : p.toNat + fields.record ≤ hi := hwithin.1.2
    rw [Form.Narrow]
    exact ⟨by omega, Forms.Holds.narrow hhi h hwithin.2⟩
  | .bool, _, _, _, _, _ | .int _, _, _, _, _, _ | .address, _, _, _, _, _ | .string, _, _, _, _, _
  | .bytes _, _, _, _, _, _ | .uid, _, _, _, _, _ | .id, _, _, _, _, _
  | .vector _, _, _, _, _, _ => by
    rw [Form.Narrow]
    trivial

theorem Forms.Holds.narrow {tight : Bool} {f : Nat → UInt8} {lo hi : Nat} (hhi : hi < UInt32.size) :
    ∀ {fs : Forms} {a : Nat} {x : fs.Val} {bs : List Block}, fs.Holds tight f a x bs →
      Within lo hi bs → fs.Narrow x
  | .nil, _, _, _, _, _ => trivial
  | .cons boxed form fs, a, x, _, ⟨here, rest, hx, hxs, hbs⟩, hwithin => by
    rw [hbs, within_append] at hwithin
    rw [Forms.Narrow]
    refine ⟨?_, Forms.Holds.narrow hhi hxs hwithin.2⟩
    cases boxed with
    | true =>
      rw [if_pos rfl] at hx
      obtain ⟨p, rest, -, hx, rfl⟩ := hx
      exact Form.Holds.narrow hhi hx (within_cons.1 hwithin.1).2
    | false =>
      rw [if_neg Bool.false_ne_true] at hx
      exact Form.Holds.narrow hhi hx hwithin.1

end

/-! ## Writing -/

namespace Storage

section

variable {vm : Vm} {form : Form} {x : form.Val} {v : Value} {bs : List Block}

/-- The word of a value that lies behind the reserved word is written. -/
theorem run_storingWord (hsingle : form.single = true) (hs : vm.Sane)
    (hx : form.Holds true vm.memory.byte v x bs) (hbs : Within 96 vm.memory.size bs) :
    (storingWord form v slotData).run vm = (write slotData.toNat (form.encode x)).run vm := by
  have h32 : (32 : UInt32).toNat = 32 := rfl
  have hslot : slotData.toNat = 64 := rfl
  have hp : Placed vm slotData.toNat bs :=
    ⟨hs, fun b hb => (hbs b hb).2, fun b hb i hi _ => .inr (by have := (hbs b hb).1; omega),
      (by decide : slotData.toNat + 32 ≤ 320).trans hs.start_le⟩
  have hpack (h : PacksInPlace form) (hx : form.Holds false vm.memory.byte v x bs) :
      (packing form v slotData 0).run vm = (write slotData.toNat (form.encode x)).run vm := h hx hp
  have hcopy : ∀ {p : UInt32}, view vm.memory.byte p.toNat 32 = form.encode x →
      p.toNat + 32 ≤ vm.memory.size →
      (copy slotData p 32).run vm = (write slotData.toNat (form.encode x)).run vm := by
    intro p hview hfit
    rw [run_copy (by omega), h32, hview]
  have hlen : ∀ w : Word, w.toList.length = 32 := by simp
  cases form with
  | string | vector | struct => cases hsingle
  | bool => exact hpack packsInPlace_bool hx
  | int width => exact hpack (packsInPlace_int width) hx
  | address => exact hpack packsInPlace_address hx
  | enum n => exact hpack (packsInPlace_enum n) hx
  | bytes n =>
    obtain ⟨p, rfl, hview, rfl⟩ := hx
    have hn := n.isLt
    have hlen : (Vector.toList x ++ List.replicate (32 - n.val) 0).length = 32 := by
      simp
      omega
    rw [if_pos rfl, hlen] at hview hbs
    rw [storingWord, Value.word]
    exact hcopy (by rw [hview, Form.encode]) (hbs _ (mem_singleton_self _)).2
  | uid =>
    obtain ⟨p, rest, rfl, ⟨q, rest', hq, ⟨r, hr, hview, rfl⟩, rfl⟩, rfl⟩ := hx
    rw [hlen] at hview hbs
    simp only [within_cons, Block.stop, slotSize, Bool.false_eq_true, if_false] at hbs
    rw [storingWord, Value.word, run_bind_ok (run_loadCell hbs.1.2 hq),
      run_bind_ok (run_loadCell hbs.2.1.2 hr)]
    exact hcopy (by rw [hview, Form.encode]) hbs.2.2.1.2
  | id =>
    obtain ⟨p, rest, rfl, ⟨q, hq, hview, rfl⟩, rfl⟩ := hx
    rw [hlen] at hview hbs
    simp only [within_cons, Block.stop, slotSize, Bool.false_eq_true, if_false] at hbs
    rw [storingWord, Value.word, run_bind_ok (run_loadCell hbs.1.2 hq)]
    exact hcopy (by rw [hview, Form.encode]) hbs.2.1.2

theorem runs_storingWord (hsingle : form.single = true) (hs : vm.Sane)
    (hx : form.Holds true vm.memory.byte v x bs) (hbs : Within 96 vm.memory.size bs) :
    Runs (storingWord form v slotData) vm () 0
      (patch vm.memory.byte slotData.toNat (form.word x).toList) := by
  have hsize : 320 ≤ vm.memory.size := hs.start_le.trans hs.top_le
  have hslot : slotData.toNat = 64 := rfl
  rw [Form.toList_word hsingle]
  have hlen : (form.encode x).length = 32 := by
    rw [← Form.toList_word hsingle]
    simp
  obtain ⟨vm', hrun, hb⟩ := runs_write hs (show slotData.toNat + (form.encode x).length ≤ _ by omega)
  exact ⟨vm', (run_storingWord hsingle hs hx hbs).trans hrun, hb⟩

end

/-! ## Reading -/

section

variable {vm : Vm} {form : Form} {x : form.Val}

/-- A small number is read from the end of its word. -/
theorem run_loadLow {n : Nat} (hs : vm.Sane) (hn : n < 4294967296)
    (hview : view vm.memory.byte 64 32 = ofNatBE 32 n) :
    (load32 slotData 28).run vm = .ok (UInt32.ofNat (number vm.memory.byte 92 4), vm) ∧
      swap32 (UInt32.ofNat (number vm.memory.byte 92 4)) = UInt32.ofNat n := by
  have hsize : 320 ≤ vm.memory.size := hs.start_le.trans hs.top_le
  have hplace : slotData.toNat + (28 : UInt32).toNat = 92 := rfl
  refine ⟨?_, swap32_number (view_low hview (k := 4) (by decide) hn) hn⟩
  rw [run_load32 (by omega), hplace]

theorem tries_readingSmall {n : Nat} (hs : vm.Sane) (hn : n < 4294967296)
    (hview : view vm.memory.byte 64 32 = ofNatBE 32 n)
    (hx : form.Holds true vm.memory.byte (.i32 (UInt32.ofNat n)) x []) :
    Tries (do return Value.i32 (swap32 (← load32 slotData 28))) vm 0 (Rebuilds form x vm) := by
  obtain ⟨hrun, hswap⟩ := run_loadLow hs hn hview
  refine .step hrun rfl le_rfl (.pure ⟨[], ?_, .refl hs, fresh_nil⟩)
  rwa [hswap]

theorem tries_cellOfCopy {w : Word} (hs : vm.Sane) (hview : view vm.memory.byte 64 32 = w.toList) :
    Tries (do newCell (← unpackCopy slotData)) vm 36 fun p vm' =>
      ∃ bs, Form.id.Holds true vm'.memory.byte (.i32 p) w bs ∧ vm.Grows vm' ∧
        Fresh vm.top.toNat vm'.top.toNat bs := by
  have hsize : 320 ≤ vm.memory.size := hs.start_le.trans hs.top_le
  have hslot : slotData.toNat = 64 := rfl
  have hlen : w.toList.length = 32 := by simp
  refine (tries_unpackCopy hs (by omega)).bind (k := 4) fun p vm₁ hcopy _ => ?_
  obtain ⟨-, hbytes, hgrows, hfresh⟩ := built_copy hs hcopy
  have hw : BytesAt vm₁.memory.byte (.i32 p) w.toList [⟨p.toNat, 32⟩] :=
    ⟨p, rfl, by rw [hlen]; exact hbytes.trans hview, by rw [hlen]⟩
  refine (tries_cellOf hgrows.sane (.i32 p)).mono fun cell vm' hcell _ => ?_
  obtain ⟨hgrows', hat, hfresh', -⟩ := put_cell (fun f v bs => BytesAt f v w.toList bs)
    (fun hsame h => h.congr hsame) hgrows hfresh hw hcell
  refine ⟨_, ?_, hgrows', hfresh'⟩
  rw [Form.Holds]
  exact hat

/-- The value whose word is in the reserved place is built. -/
theorem tries_readingWord (hsingle : form.single = true) (hs : vm.Sane) (hnarrow : form.Narrow x)
    (hview : view vm.memory.byte 64 32 = form.encode x) :
    Tries (readingWord form slotData) vm form.demand (Rebuilds form x vm) := by
  have hsize : 320 ≤ vm.memory.size := hs.start_le.trans hs.top_le
  have hslot : slotData.toNat = 64 := rfl
  cases form with
  | string | vector | struct => cases hsingle
  | bool =>
    rw [Form.encode] at hview
    have hlt : x.toNat < 4294967296 := by cases x <;> decide
    refine tries_readingSmall hs hlt hview ?_
    rw [Form.Holds]
    exact ⟨by cases x <;> rfl, rfl⟩
  | int width =>
    rw [Form.encode] at hview
    have hlt := x.isLt
    cases width with
    | w8 | w16 | w32 =>
      refine tries_readingSmall hs (hlt.trans_le (by decide)) hview ?_
      rw [Form.Holds]
      exact ⟨rfl, rfl⟩
    | w64 =>
      have hlow := view_low hview (k := 8) (by decide) hlt
      have hplace : slotData.toNat + (24 : UInt32).toNat = 64 + (32 - 8) := rfl
      refine .step (run_load64 (by omega)) rfl le_rfl (.pure ⟨[], ?_, .refl hs, fresh_nil⟩)
      rw [hplace, swap64_number hlow hlt, Form.Holds]
      exact ⟨rfl, rfl⟩
    | w128 =>
      have hlow := view_low hview (k := 16) (by decide) hlt
      have hplace : (slotData + 16).toNat = 64 + (32 - 16) := rfl
      rw [← hplace] at hlow
      have hfit : (slotData + 16).toNat + 16 ≤ vm.memory.size := by omega
      exact rebuilds_reversed .w128 (n := 16) rfl (fun _ p _ h => ⟨p, rfl, h, rfl⟩) (by decide) x
        hs hfit hlow
    | w256 =>
      have hfit : slotData.toNat + 32 ≤ vm.memory.size := by omega
      exact rebuilds_reversed .w256 (n := 32) rfl (fun _ p _ h => ⟨p, rfl, h, rfl⟩) (by decide) x
        hs hfit hview
  | address =>
    refine rebuilds_copied hs (by omega) hview fun f p h => ?_
    rw [Form.encode] at h
    rw [Form.Holds]
    exact ⟨p, rfl, by simpa using h, by simp⟩
  | bytes n =>
    have hn := n.isLt
    refine rebuilds_copied hs (by omega) hview fun f p h => ?_
    rw [Form.encode] at h
    rw [Form.Holds]
    exact ⟨p, rfl, by simpa [show n.val + (32 - n.val) = 32 by omega] using h,
      by simp [show n.val + (32 - n.val) = 32 by omega]⟩
  | enum m =>
    rw [Form.Narrow] at hnarrow
    rw [Form.encode] at hview
    have h0 : (0 : UInt32).toNat = 0 := rfl
    refine (tries_allocate hs 4).bind (k := 0) fun p vm₁ hrun _ => ?_
    obtain ⟨rfl, hb⟩ := allocate_becomes hs hrun
    have htop : vm₁.top.toNat = vm.top.toNat + 4 := hb.top_eq
    obtain ⟨hload, hswap⟩ := run_loadLow hb.sane hnarrow (by rwa [hb.byte_eq])
    refine .step hload rfl le_rfl ?_
    rw [hswap]
    refine .write_step hb.sane (by rw [length_ofNatLE, h0]; omega) fun vm₂ hwrite hb₂ =>
      .pure ?_
    obtain ⟨-, hgrows, hfresh, -⟩ := built_block hs hrun (by simp) hwrite
    rw [length_ofNatLE] at hfresh
    refine ⟨_, ?_, hgrows, hfresh⟩
    rw [Form.Holds, hb₂.byte_eq]
    exact ⟨vm.top, [], rfl, ⟨slotAt_patch _ _ (.i32 (UInt32.ofNat x.val)), hnarrow, rfl⟩, rfl⟩
  | id =>
    rw [Form.encode] at hview
    rw [readingWord, ← map_bind]
    exact .map (tries_cellOfCopy hs hview)
  | uid =>
    rw [Form.encode] at hview
    rw [readingWord, ← bind_assoc]
    refine (tries_cellOfCopy hs hview).bind (k := 4) fun p vm₁ _ hid => ?_
    obtain ⟨bs, hid, hgrows, hfresh⟩ := hid
    refine .map ((tries_cellOf hgrows.sane (.i32 p)).mono fun cell vm' hcell _ => ?_)
    obtain ⟨hgrows', hat, hfresh', -⟩ := put_cell (fun f v bs => Form.id.Holds true f v x bs)
      (fun hsame h => h.congr hsame) hgrows hfresh hid hcell
    refine ⟨_, ?_, hgrows', hfresh'⟩
    rw [Form.Holds]
    simp only [Form.Holds] at hat
    exact hat

end

end Storage

end MoveCodec
