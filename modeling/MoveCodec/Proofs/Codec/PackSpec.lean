import MoveCodec.Proofs.Codec.PackLimits
import MoveCodec.Proofs.Codec.PackWords
import MoveCodec.Proofs.Machine.Attempts

/-!
# Packing writes the canonical encoding

With space for it, the packer of a form writes the head of a value where it is told to and the tail
at the end of the heap, and nothing else. Tails of the parts of a tuple therefore follow one
another in the order of the heads.
-/
namespace MoveCodec

open Machine Machine.Compute List Bytes

variable {a b : UInt32} {boxed : Bool} {c : UInt8} {e : Form} {fields : Forms} {rest : List Block}
  {α : Type} {vm : Vm}

variable {i : Nat} {f : Nat → UInt8} {form : Form} {s : Bytes}

namespace Codec

/-- The computation writes `head` at `w` and allocates and writes `tail`, if there is space. -/
def Writes (m : Compute Unit) (vm : Vm) (w : Nat) (head tail : Bytes) : Prop :=
  Attempts m vm () tail.length (patch (patch vm.memory.byte w head) vm.top.toNat tail)

section

variable {vm : Vm} {w : Nat} {h₁ h₂ t₁ t₂ : Bytes}

/-- A first step that changes nothing. -/
theorem Writes.after {m : Compute α} {next : α → Compute Unit} {x : α}
    (hm : m.run vm = .ok (x, vm)) (hnext : Writes (next x) vm w h₁ t₁) :
    Writes (m >>= next) vm w h₁ t₁ :=
  Attempts.of_run_eq (run_bind_ok hm) hnext

theorem Writes.append {m : Compute Unit} {next : Unit → Compute Unit} (hm : Writes m vm w h₁ t₁)
    (hfit : w + h₁.length + h₂.length ≤ vm.top.toNat)
    (hnext : ∀ vm', vm.Becomes t₁.length
        (patch (patch vm.memory.byte w h₁) vm.top.toNat t₁) vm' →
      Writes (next ()) vm' (w + h₁.length) h₂ t₂) :
    Writes (m >>= next) vm w (h₁ ++ h₂) (t₁ ++ t₂) := by
  have hbytes : ∀ vm', vm.Becomes t₁.length
      (patch (patch vm.memory.byte w h₁) vm.top.toNat t₁) vm' →
      patch (patch vm'.memory.byte (w + h₁.length) h₂) vm'.top.toNat t₂ =
        patch (patch vm.memory.byte w (h₁ ++ h₂)) vm.top.toNat (t₁ ++ t₂) := by
    intro vm' hb
    rw [hb.byte_eq, hb.top_eq, patch_comm (.inr hfit), ← patch_append, ← patch_append]
  have h := Attempts.bind hm fun vm' hb => by
    have := hnext vm' hb
    rw [Writes, hbytes vm' hb] at this
    exact this
  rw [Writes, length_append]
  exact h

/-- A static value is written in its head. -/
theorem writes_of_static {x : form.Val} (hstatic : form.dynamic = false) (next : Nat)
    {m : Compute Unit} (h : Runs m vm () 0 (patch vm.memory.byte w (form.encode x))) :
    Writes m vm w ((form.piece x).head next) (form.piece x).tail := by
  simpa [Writes, Wire.Piece.head, Wire.Piece.tail, hstatic] using h.attempts

end

/-! ## Values -/

/-- The head of a value that takes up the blocks `bs` can be written to the `n` bytes at `w`. The `k`
bytes of its tail can be counted in 32 bits, or memory cannot grow to 4 GiB. -/
structure Ready (vm : Vm) (w n k : Nat) (bs : List Block) : Prop where
  sane : vm.Sane
  below : Below vm.top.toNat bs
  aside : Aside w n bs
  place_le : w + n ≤ vm.top.toNat
  bounded : k < 4294967296 ∨ vm.memory.limit ≤ 65535

section

variable {vm vm' : Vm} {w n k m : Nat} {bs : List Block} {h t : Bytes}

theorem Ready.next {w' n' k' : Nat} {cs : List Block} (hr : Ready vm w n k bs)
    (hb : vm.Becomes m f vm') (hbelow : Below vm.top.toNat cs) (haside : Aside w' n' cs)
    (hplace : w' + n' ≤ vm.top.toNat + m) (hlength : k' ≤ k) : Ready vm' w' n' k' cs where
  sane := hb.sane
  below := hbelow.mono (by rw [hb.top_eq]; exact Nat.le_add_right _ _)
  aside := haside
  place_le := by rwa [hb.top_eq]
  bounded := hr.bounded.imp (fun h => hlength.trans_lt h) fun h => hb.limit_eq ▸ h

/-- What is written leaves the blocks of the value as they are. -/
theorem Ready.same (hr : Ready vm w n k bs)
    (hb : vm.Becomes m (patch (patch vm.memory.byte w h) vm.top.toNat t) vm')
    (hlen : h.length ≤ n) : Same vm.memory.byte vm'.memory.byte bs := by
  rw [hb.byte_eq]
  exact (hr.aside.same hlen).trans (hr.below.aside.same le_rfl)

/-- When the heads do not fit into 32 bits, they do not fit into the memory. -/
theorem attempts_of_reaches {m : Compute α} {x : α} (hr : Ready vm w n k bs)
    (ht : Tame 0 m) {j : Nat} (hm : Reaches 0 j m) (hj : 4294967296 ≤ j) (hk : j ≤ k) :
    Attempts m vm x k f := by
  have hlimit := hr.bounded.resolve_left (by omega)
  refine .inr ⟨?_, ?_⟩
  · cases hrun : m.run vm with
    | error e =>
      obtain ⟨t, rfl⟩ := ht.trap_of_error hr.sane (Nat.zero_le _) hrun
      exact ⟨t, rfl⟩
    | ok r =>
      have hsize := hm hr.sane hlimit (Nat.zero_le _) hrun
      obtain ⟨-, hv⟩ := ht.spares hr.sane (Nat.zero_le _) hrun
      have := hv.sane.size_lt (hv.limit_eq ▸ hlimit)
      omega
  · rw [hr.sane.space_eq hlimit, Vm.room]
    omega

end

/-- The head of a dynamic value is the distance to a new block, which is then filled. -/
theorem writes_tail {k : Nat} {bs : List Block} {w base size : UInt32} {bytes h t : Bytes}
    {next : UInt32 → Compute Unit} (hbytes : bytes = h ++ t) (hr : Ready vm w.toNat 32 k bs)
    (hsize : size.toNat = h.length)
    (hnext : ∀ vm', vm.Becomes size.toNat (patch vm.memory.byte w.toNat
        (ofNatBE 32 (vm.top - base).toNat)) vm' →
      Writes (next vm.top) vm' vm.top.toNat h t) :
    Writes (allocate size >>= fun tail => packOffset tail base w >>= fun _ => next tail) vm w.toNat
      (ofNatBE 32 (vm.top - base).toNat) bytes := by
  have hlen : bytes.length = size.toNat + t.length := by rw [hbytes, length_append, hsize]
  rw [Writes, hlen, hbytes]
  refine (attempts_allocate hr.sane size).bind fun vm₁ hb₁ => ?_
  have hstore := runs_storeWord (v := vm.top - base) hb₁.sane
    ((hr.place_le.trans hr.sane.top_le).trans hb₁.size_le)
  rw [hb₁.byte_eq] at hstore
  refine .bind₀ hstore fun vm₂ hb₂ => ?_
  have hb := hb₁.trans hb₂
  have hn := hnext vm₂ hb
  rwa [Writes, hb.byte_eq, hb.top_eq, Nat.add_zero, hsize, ← patch_append] at hn

/-- A word before what is written next. -/
theorem writes_storeWord {w n : UInt32} (hs : vm.Sane) (hw : w.toNat + 32 ≤ vm.memory.size) :
    Writes (storeWord w n) vm w.toNat (ofNatBE 32 n.toNat) [] := by
  simpa [Writes] using (runs_storeWord hs hw).attempts

/-- The packer of the form writes the head and the tail of a value. -/
def Packs (form : Form) : Prop :=
  ∀ ⦃x : form.Val⦄ ⦃v : Value⦄ ⦃w base : UInt32⦄ ⦃vm : Vm⦄ ⦃bs : List Block⦄,
    form.Holds false vm.memory.byte v x bs →
    Ready vm w.toNat form.head (form.piece x).tail.length bs →
    Writes (packing form v w base) vm w.toNat
      ((form.piece x).head (vm.top - base).toNat) (form.piece x).tail

/-! ## Texts -/

/-- A length rounded up to whole words. -/
theorem toNat_whole {n : UInt32} (h : n.toNat + 31 < 4294967296) :
    ((n + 31) &&& 0xffffffe0).toNat = n.toNat + (Wire.padding n.toNat).length := by
  have hmask : ∀ x : UInt32, x &&& (0xffffffe0 : UInt32) = (x >>> 5) <<< 5 := by
    intro x
    apply UInt32.toBitVec_inj.mp
    ext i hi
    simp only [UInt32.toBitVec_and, UInt32.toBitVec_shiftLeft, UInt32.toBitVec_shiftRight]
    interval_cases i <;> simp
  have hc : (31 : UInt32).toNat = 31 := rfl
  have h5 : (5 : UInt32).toNat % 32 = 5 := rfl
  rw [hmask, UInt32.toNat_shiftLeft, UInt32.toNat_shiftRight, toNat_add_of_lt (by rw [hc]; exact h),
    hc, h5, Nat.shiftRight_eq_div_pow, Nat.shiftLeft_eq, Wire.padding, length_replicate]
  omega

theorem byte_of_slotAt {a : Nat}
    (h : slotAt f false a = .i32 c.toUInt32) : f a = c := by
  have hnum := congrArg UInt32.toNat (slotAt_false h)
  rw [toNat_ofNat_of_lt number_lt, UInt8.toNat_toUInt32, number] at hnum
  have hview : view f a 4 = f a :: view f (a + 1) 3 := view_add (m := 1) (n := 3)
  rw [hview, toNatLE] at hnum
  have h₁ := c.toNat_lt
  have h₂ := (f a).toNat_lt
  exact UInt8.toNat_inj.mp (by omega)

/-- The bytes of a text stand at the start of their slots. -/
theorem row_chars {a : Nat}
    (h : Row f false (fun v (b : UInt8) bs => v = .i32 b.toUInt32 ∧ bs = []) a s rest) :
    rest = [] ∧ ∀ j (hj : j < s.length), f (a + j * 4) = s[j] := by
  induction s generalizing a rest with
  | nil => exact ⟨h, by simp⟩
  | cons c s ih =>
    obtain ⟨here, more, ⟨hc, rfl⟩, hrow, rfl⟩ := h
    obtain ⟨rfl, hmore⟩ := ih hrow
    refine ⟨rfl, fun j hj => ?_⟩
    cases j with
    | zero => simpa using byte_of_slotAt hc
    | succ j =>
      have := hmore j (by simpa using hj)
      rw [show a + slotSize false + j * 4 = a + (j + 1) * 4 by simp [slotSize]; omega] at this
      simpa using this

theorem runs_store8 (hs : vm.Sane) (h : a.toNat + b.toNat + 1 ≤ vm.memory.size) :
    Runs (store8 a b c.toUInt32) vm () 0 (patch vm.memory.byte (a.toNat + b.toNat) [c]) := by
  have hc : ofNatLE 1 c.toUInt32.toNat = [c] := by simp [ofNatLE]
  rw [store8, hc]
  exact runs_write hs h

/-- Copying the characters of a text, one byte from each slot. -/
theorem runs_packChars (vec tail : UInt32) (hs : vm.Sane)
    (hchars : ∀ j (hj : j < s.length), vm.memory.byte (vec.toNat + 8 + (i + j) * 4) = s[j])
    (hle : vec.toNat + 8 + (i + s.length) * 4 ≤ tail.toNat + 32)
    (hfit : tail.toNat + 32 + (i + s.length) ≤ vm.top.toNat) :
    Runs (upTo (fun i => load8 (vec + i * 4) 8 >>= store8 (tail + i) 32) s.length (UInt32.ofNat i))
      vm () 0 (patch vm.memory.byte (tail.toNat + 32 + i) s) := by
  induction s generalizing i vm with
  | nil =>
    rw [patch_nil]
    exact Runs.pure hs ()
  | cons c s ih =>
    rw [length_cons] at hle hfit
    have htop := vm.top.toNat_lt
    have hsize := hs.top_le
    have h8 : (8 : UInt32).toNat = 8 := rfl
    have h32 : (32 : UInt32).toNat = 32 := rfl
    have hi : (UInt32.ofNat i).toNat = i := toNat_ofNat_of_lt (by omega)
    have hsrc : (vec + UInt32.ofNat i * 4).toNat + (8 : UInt32).toNat = vec.toNat + 8 + i * 4 := by
      have h : (vec + UInt32.ofNat i * 4).toNat = vec.toNat + i * 4 := toNat_index vec i 4 (by omega)
      omega
    have hdst : (tail + UInt32.ofNat i).toNat + (32 : UInt32).toNat = tail.toNat + 32 + i := by
      rw [toNat_add_of_lt (by rw [hi]; omega), hi, h32]
      omega
    have hnext : UInt32.ofNat i + 1 = UInt32.ofNat (i + 1) := by simp
    have hc : vm.memory.byte (vec.toNat + 8 + i * 4) = c := hchars 0 (by simp)
    have hload : (load8 (vec + UInt32.ofNat i * 4) 8).run vm = .ok (c.toUInt32, vm) := by
      rw [run_load8 (by omega), hsrc, hc]
    have hstore := runs_store8 (c := c) hs (a := tail + UInt32.ofNat i) (b := 32) (by omega)
    rw [hdst] at hstore
    refine (Runs.after hload hstore).bind₀ fun vm' hb => ?_
    rw [hnext]
    -- the byte just written lies behind all slots
    have hrest : ∀ j (hj : j < s.length), vm'.memory.byte (vec.toNat + 8 + (i + 1 + j) * 4) = s[j] := by
      intro j hj
      have hold : vm.memory.byte (vec.toNat + 8 + (i + (j + 1)) * 4) = s[j] :=
        hchars (j + 1) (by simpa using hj)
      rwa [hb.byte_eq, patch_outside (.inl (by omega)), Nat.add_assoc i, Nat.add_comm 1]
    have h := ih hb.sane hrest (by omega) (by rw [hb.top_eq]; omega)
    rw [hb.byte_eq] at h
    rw [← singleton_append, patch_append]
    exact h

/-- Fills the tail of a text: its length, its bytes and zeros up to a whole word. -/
def packText (vec n whole tail : UInt32) : Compute Unit := do
  storeWord tail n
  upTo (fun i => load8 (vec + i * 4) 8 >>= store8 (tail + i) 32) n.toNat 0
  zero (tail + n + 32) (whole - n)

theorem runs_packText {vec tail n whole : UInt32} (hs : vm.Sane) (hn : n.toNat = s.length)
    (hwhole : whole.toNat = s.length + (Wire.padding s.length).length)
    (hchars : ∀ j (hj : j < s.length), vm.memory.byte (vec.toNat + 8 + j * 4) = s[j])
    (hle : vec.toNat + 8 + s.length * 4 ≤ tail.toNat)
    (hfit : tail.toNat + 32 + whole.toNat ≤ vm.top.toNat) : Runs (packText vec n whole tail) vm () 0
      (patch vm.memory.byte tail.toNat (Form.string.encode s)) := by
  have htop := vm.top.toNat_lt
  have hsize := hs.top_le
  have h32 : (32 : UInt32).toNat = 32 := rfl
  have hword : (ofNatBE 32 n.toNat).length = 32 := length_ofNatBE ..
  have hdst : (tail + n + 32).toNat = tail.toNat + 32 + s.length := by
    have h : (tail + n).toNat = tail.toNat + n.toNat := toNat_add_of_lt (by omega)
    rw [toNat_add_of_lt (by omega), h, h32]
    omega
  have hpad : (whole - n).toNat = (Wire.padding s.length).length := by
    rw [UInt32.toNat_sub_of_le _ _ (UInt32.le_iff_toNat_le.mpr (by omega))]
    omega
  have hzeros : List.replicate (Wire.padding s.length).length (0 : UInt8) = Wire.padding s.length := by
    simp [Wire.padding]
  rw [Form.encode, patch_append, patch_append, ← hn, hword]
  refine (runs_storeWord hs (by omega)).bind₀ fun vm₁ hb₁ => ?_
  have htop₁ := hb₁.top_eq
  have hchars₁ : ∀ j (hj : j < s.length), vm₁.memory.byte (vec.toNat + 8 + (0 + j) * 4) = s[j] := by
    intro j hj
    rw [hb₁.byte_eq, patch_outside (.inl (by omega)), Nat.zero_add, hchars]
  have hloop := runs_packChars vec tail hb₁.sane hchars₁ (by omega) (by omega)
  rw [hb₁.byte_eq, Nat.add_zero, ← hn] at hloop
  refine hloop.bind₀ fun vm₂ hb₂ => ?_
  have htop₂ := hb₂.top_eq
  have hsize₂ := hb₂.sane.top_le
  have hzero : Runs (zero (tail + n + 32) (whole - n)) vm₂ () 0 _ :=
    runs_zero hb₂.sane (by omega)
  rw [hb₂.byte_eq, hdst, hpad, hzeros] at hzero
  rw [← hn] at hzero
  exact hzero

/-- A text is written behind an offset. -/
theorem packs_string : Packs .string := by
  intro s v w base vm bs hx hr
  obtain ⟨p, rest, rfl, ⟨q, hq, hlen, -, row, hrow, rfl⟩, rfl⟩ := hx
  obtain ⟨rfl, hchars⟩ := row_chars hrow
  have hbelow := hr.below
  simp only [below_cons] at hbelow
  have hqtop : q.toNat + (8 + s.length * 4) ≤ vm.top.toNat := hbelow.2.1
  have hlt := vm.top.toNat_lt
  have hle := hr.sane.top_le
  have h0 : (0 : UInt32).toNat = 0 := rfl
  have h32 : (32 : UInt32).toNat = 32 := rfl
  have hn : (UInt32.ofNat s.length).toNat = s.length := toNat_ofNat_of_lt (by omega)
  have hpad : (Wire.padding s.length).length < 32 := by
    rw [Wire.padding, length_replicate]
    omega
  have hwhole := toNat_whole (n := UInt32.ofNat s.length) (by omega)
  rw [hn] at hwhole
  generalize hw : (UInt32.ofNat s.length + 31) &&& 0xffffffe0 = whole at hwhole
  have hload : (load32 q 0).run vm = .ok (UInt32.ofNat s.length, vm) := by
    rw [run_load32 (by omega), h0, Nat.add_zero, hlen]
  have hsize : (32 + whole).toNat = 32 + whole.toNat := by
    rw [toNat_add_of_lt (by omega), h32]
  have hencode : (32 + whole).toNat = (Form.string.encode s).length := by
    rw [hsize, hwhole]
    simp [Form.encode]
  rw [packing, packString, Value.word]
  refine .after (run_loadCell (hbelow.1.trans hle) hq) (.after hload ?_)
  rw [hw]
  refine writes_tail (t := []) (append_nil _).symm hr hencode fun vm' hb => ?_
  have htop := hb.top_eq
  rw [hsize] at htop
  rw [Writes, patch_nil]
  refine (runs_packText hb.sane hn hwhole (fun j hj => ?_) (by omega) (by omega)).attempts
  have haside := (aside_cons.1 (aside_cons.1 hr.aside).2).1
  have hsame : Same vm.memory.byte vm'.memory.byte [⟨q.toNat, 8 + s.length * 4⟩] := by
    rw [hb.byte_eq]
    exact haside.same (by rw [length_ofNatBE]; rfl)
  rw [← hchars j hj]
  exact (hsame _ (mem_singleton_self _) _ (by simp only; omega)
    (by simp only [Block.stop]; omega)).symm

/-! ## Vectors, records and tuples -/

theorem toNat_sub_of_add {n : Nat} (h : b.toNat + n = a.toNat) : (a - b).toNat = n := by
  rw [UInt32.toNat_sub_of_le _ _ (UInt32.le_iff_toNat_le.mpr (by omega))]
  omega

/-- The elements of a vector are written as a tuple. -/
theorem writes_row (p start : UInt32) {xs : List e.Val} {next : Nat} (helem : Packs e)
    (hrow : Row vm.memory.byte e.wide (e.Holds false vm.memory.byte) (p.toNat + 8 + i * e.slot) xs
      rest) (hr : Ready vm (start.toNat + i * e.head) (xs.length * e.head)
      (Wire.tails (xs.map e.piece)).length
      (⟨p.toNat + 8 + i * e.slot, xs.length * e.slot⟩ :: rest))
    (hbase : start.toNat + next = vm.top.toNat) :
    Writes (upTo (fun i => loadSlot e.wide (p + i * e.slotWord) 8 >>= fun x =>
        packing e x (start + i * e.headWord) start) xs.length (UInt32.ofNat i)) vm
      (start.toNat + i * e.head) (Wire.heads next (xs.map e.piece))
      (Wire.tails (xs.map e.piece)) := by
  induction xs generalizing i vm rest next with
  | nil =>
    simp only [Writes, map_nil, Wire.heads, Wire.tails, patch_nil]
    exact (Runs.pure hr.sane ()).attempts
  | cons x xs ih =>
    obtain ⟨here, more, hx, hrow, rfl⟩ := hrow
    have hnext : UInt32.ofNat i + 1 = UInt32.ofNat (i + 1) := by simp
    have hplace := hr.place_le
    have htop := vm.top.toNat_lt
    have hbelow := hr.below
    have haside := hr.aside
    simp only [below_cons, below_append] at hbelow
    rw [aside_cons, aside_append] at haside
    rw [length_cons, Nat.succ_mul] at hplace hbelow haside
    have hdst : (start + UInt32.ofNat i * e.headWord).toNat = start.toNat + i * e.head :=
      toNat_index _ _ _ (by omega)
    have hload := run_loadElem (p := p) (e := e) hr.sane (i := i) (by omega)
    have hwidth : ((e.piece x).head next).length = e.head := by
      rw [Wire.Piece.length_head, e.width_piece]
    have hfirst : Writes (loadSlot e.wide (p + UInt32.ofNat i * e.slotWord) 8 >>= fun x =>
        packing e x (start + UInt32.ofNat i * e.headWord) start) vm (start.toNat + i * e.head)
        ((e.piece x).head next) (e.piece x).tail := by
      refine Writes.after hload ?_
      have h : Writes (packing e _ (start + UInt32.ofNat i * e.headWord) start) vm _ _ _ :=
        helem hx (hr.next hr.sane.becomes hbelow.2.1
          (haside.2.1.part (by omega) (by omega)) (by omega) (by simp [Wire.tails]))
      rwa [hdst, toNat_sub_of_add hbase] at h
    rw [map_cons, Wire.heads, Wire.tails]
    refine hfirst.append ?_ fun vm' hb => ?_
    · rw [hwidth, Wire.length_heads, e.headsSize_map]
      omega
    · have hsame := hr.same hb (by rw [hwidth, length_cons, Nat.succ_mul]; omega)
      rw [same_cons, same_append] at hsame
      have hslots : (i + 1) * e.slot = i * e.slot + e.slot := Nat.succ_mul ..
      have hheads : (i + 1) * e.head = i * e.head + e.head := Nat.succ_mul ..
      have hcount : (xs.length + 1) * e.slot = xs.length * e.slot + e.slot := Nat.succ_mul ..
      have hrow' : Row vm'.memory.byte e.wide (e.Holds false vm'.memory.byte)
          (p.toNat + 8 + (i + 1) * e.slot) xs more := by
        have hend : p.toNat + 8 + i * e.slot + e.slot + xs.length * e.slot ≤
            p.toNat + 8 + i * e.slot + (xs.length + 1) * e.slot := by omega
        rw [Nat.succ_mul, ← Nat.add_assoc]
        exact hrow.congr (hsame.1.sub (Nat.le_add_right _ _) hend) hsame.2.2
          fun _ _ _ hs h => h.congr hs
      have hslot : Aside (start.toNat + i * e.head) (xs.length * e.head + e.head)
          [⟨p.toNat + 8 + (i + 1) * e.slot, xs.length * e.slot⟩] :=
        haside.1.sub (by simp only; omega) (by simp only [Block.stop]; omega)
      have hr' : Ready vm' (start.toNat + (i + 1) * e.head) (xs.length * e.head)
          (Wire.tails (xs.map e.piece)).length
          (⟨p.toNat + 8 + (i + 1) * e.slot, xs.length * e.slot⟩ :: more) :=
        hr.next hb (below_cons.2 ⟨by simp only; omega, hbelow.2.2⟩)
          ((aside_cons.2 ⟨hslot, haside.2.2⟩).part (by omega) (by omega)) (by omega)
          (by simp [Wire.tails])
      have h := ih hrow' hr' (by rw [hb.top_eq, ← hbase, Nat.add_assoc])
      rw [hwidth, hnext]
      rwa [Nat.succ_mul, ← Nat.add_assoc] at h

/-- The elements of a vector stand behind their number. -/
theorem packs_vector (helem : Packs e) : Packs (.vector e) := by
  intro xs v w base vm bs hx hr
  obtain ⟨p, rfl, hlen, -, row, hrow, rfl⟩ := hx
  have hbelow := below_cons.1 hr.below
  have hpH : p.toNat + (8 + xs.length * e.slot) ≤ vm.top.toNat := hbelow.1
  have hlt := vm.top.toNat_lt
  have hle := hr.sane.top_le
  have h0 : (0 : UInt32).toNat = 0 := rfl
  have hslot : 4 ≤ e.slot := by unfold Form.slot slotSize; split <;> omega
  have hcount : xs.length ≤ xs.length * e.slot := Nat.le_mul_of_pos_right _ (by omega)
  have hn : (UInt32.ofNat xs.length).toNat = xs.length := toNat_ofNat_of_lt (by omega)
  have hwidth : (Wire.heads (Wire.headsSize (xs.map e.piece)) (xs.map e.piece)).length =
      xs.length * e.head := by
    rw [Wire.length_heads, e.headsSize_map]
  have hword : (ofNatBE 32 xs.length).length = 32 := length_ofNatBE ..
  have hbytes : Form.encode (.vector e) xs = (ofNatBE 32 xs.length ++
      Wire.heads (Wire.headsSize (xs.map e.piece)) (xs.map e.piece)) ++
        Wire.tails (xs.map e.piece) := by
    rw [Form.encode, Wire.join, append_assoc]
  have htotal : (Form.encode (.vector e) xs).length =
      32 + xs.length * e.head + (Wire.tails (xs.map e.piece)).length := by
    rw [hbytes, length_append, length_append, hwidth, hword]
  have htail : (Form.piece (.vector e) xs).tail = Form.encode (.vector e) xs := rfl
  rw [htail] at hr ⊢
  have hload : (load32 p 0).run vm = .ok (UInt32.ofNat xs.length, vm) := by
    rw [run_load32 (by omega), h0, Nat.add_zero, hlen]
  rw [packing, Value.word]
  refine Writes.after hload ?_
  by_cases hfit : 32 + xs.length * e.head < 4294967296
  · have hsz : (32 + UInt32.ofNat xs.length * e.headWord).toNat = 32 + xs.length * e.head :=
      toNat_index 32 _ _ (by exact hfit)
    refine writes_tail hbytes hr ?_ fun vm' hb => ?_
    · rw [hsz, length_append, hwidth, hword]
    rw [hsz] at hb
    have htop := hb.sane.top_le
    have hend := vm'.top.toNat_lt
    rw [hb.top_eq] at htop hend
    have hstore := writes_storeWord (w := vm.top) (n := UInt32.ofNat xs.length) hb.sane (by omega)
    rw [hn] at hstore ⊢
    rw [← nil_append (Wire.tails _)]
    refine hstore.append ?_ fun vm'' hb' => ?_
    · rw [hwidth, hword, hb.top_eq]
      omega
    have hstart : (vm.top + 32).toNat = vm.top.toNat + 32 :=
      toNat_add_ofNat (n := 32) (by omega)
    have htop' : vm''.top.toNat = vm.top.toNat + (32 + xs.length * e.head) := by
      rw [hb'.top_eq, hb.top_eq, length_nil, Nat.add_zero]
    have hsame : Same vm.memory.byte vm''.memory.byte
        (⟨p.toNat, 8 + xs.length * e.slot⟩ :: row) := by
      rw [hb'.byte_eq, hb.byte_eq, patch_nil]
      exact (hr.aside.same (length_ofNatBE ..).le).trans (hr.below.aside.same le_rfl)
    rw [same_cons] at hsame
    have hrow' : Row vm''.memory.byte e.wide (e.Holds false vm''.memory.byte)
        (p.toNat + 8 + 0 * e.slot) xs row := by
      rw [Nat.zero_mul]
      exact hrow.congr (hsame.1.sub (Nat.le_add_right _ _) (Nat.add_assoc ..).le) hsame.2
        fun _ _ _ hs h => h.congr hs
    have hbelow' : Below vm.top.toNat (⟨p.toNat + 8 + 0 * e.slot, xs.length * e.slot⟩ :: row) :=
      below_cons.2 ⟨by simp only [Nat.zero_mul]; omega, hbelow.2⟩
    have hr' : Ready vm'' (vm.top.toNat + 32 + 0 * e.head) (xs.length * e.head)
        (Wire.tails (xs.map e.piece)).length
        (⟨p.toNat + 8 + 0 * e.slot, xs.length * e.slot⟩ :: row) :=
      hr.next (hb.trans hb') hbelow' (hbelow'.mono (by omega)).aside (by simp; omega) (by omega)
    have hnext : (vm.top + 32).toNat + Wire.headsSize (xs.map e.piece) = vm''.top.toNat := by
      rw [e.headsSize_map, hstart, htop', Nat.add_assoc]
    have h := writes_row p (vm.top + 32) helem hrow' (by rwa [hstart]) hnext
    rw [hstart, Nat.zero_mul, Nat.add_zero] at h
    rw [hword]
    exact h
  · -- the sizes wrap, but not the places of the heads
    have hrow : ∀ start, Tame 0 (upTo (fun i => loadSlot e.wide (p + i * e.slotWord) 8 >>= fun x =>
        packing e x (start + i * e.headWord) start) (UInt32.ofNat xs.length).toNat 0) := fun start =>
      tame_upTo fun _ _ => (tame_loadSlot _ _ _).then fun _ => tame_packing e _ _ _
    refine attempts_of_reaches hr ((tame_allocate _).then fun _ => (tame_storeWord _ _).then fun _ =>
      (tame_storeWord _ _).then fun _ => hrow _) (j := 32 + xs.length * e.head) ?_ (by omega)
      (by omega)
    refine reaches_allocate fun tail => .after (tame_storeWord _ _) fun _ _ =>
      .bind reaches_storeWord (tame_storeWord _ _) fun _ _ => .of_lt fun htail => ?_
    have hstart : (tail + 32).toNat = tail.toNat + 32 := toNat_add_ofNat (n := 32) htail
    have h := reaches_row e p (tail + 32) (UInt32.ofNat xs.length).toNat 0
    rw [hstart] at h
    exact h.mono (by omega) (by rw [hn, Nat.zero_add]; omega)

/-- The packers of the parts of a record write the heads and the tails of its values. The first tail
stands at the offset `next`, if there are tails. -/
def PacksAll (fs : Forms) : Prop :=
  ∀ ⦃x : fs.Val⦄ ⦃rec w base place offset : UInt32⦄ ⦃vm : Vm⦄ ⦃bs : List Block⦄ ⦃next : Nat⦄,
    fs.Holds false vm.memory.byte (rec.toNat + offset.toNat) x bs →
    Ready vm (w.toNat + place.toNat) fs.heads (Wire.tails (fs.pieces x)).length
      (⟨rec.toNat + offset.toNat, fs.record⟩ :: bs) →
    (fs.dynamic = true → base.toNat + next = vm.top.toNat) →
    Writes (packingAll fs rec w base place offset) vm (w.toNat + place.toNat)
      (Wire.heads next (fs.pieces x)) (Wire.tails (fs.pieces x))

/-- A part of a record is loaded, from behind its reference if it has one. -/
theorem run_loadPart {x : form.Val} {rec offset : UInt32} {here : List Block} (hs : vm.Sane)
    (hx : if boxed then CellAt vm.memory.byte form.wide
        (fun v bs => form.Holds false vm.memory.byte v x bs)
        (slotAt vm.memory.byte false (rec.toNat + offset.toNat)) here
      else form.Holds false vm.memory.byte
        (slotAt vm.memory.byte form.wide (rec.toNat + offset.toNat)) x here)
    (hrec : rec.toNat + offset.toNat + form.place boxed ≤ vm.top.toNat)
    (hbs : Below vm.top.toNat here) :
    ∃ v bs, (loadPart boxed form.wide rec offset).run vm = .ok (v, vm) ∧
      form.Holds false vm.memory.byte v x bs ∧ bs ⊆ here := by
  have hle := hs.top_le
  cases boxed with
  | true =>
    obtain ⟨p, rest, hp, hv, rfl⟩ := hx
    have hfit : p.toNat + slotSize form.wide ≤ vm.top.toNat := (below_cons.1 hbs).1
    have hrec : rec.toNat + offset.toNat + 4 ≤ vm.top.toNat := hrec
    refine ⟨_, rest, ?_, hv, subset_cons_self _ _⟩
    have h0 : (0 : UInt32).toNat = 0 := rfl
    have hload : (load32 rec offset).run vm = .ok (p, vm) := by
      rw [run_load32 (by omega), slotAt_false hp]
    rw [loadPart, if_pos rfl, run_bind_ok hload, run_loadSlot (by omega), h0, Nat.add_zero]
  | false =>
    have hrec : rec.toNat + offset.toNat + slotSize form.wide ≤ vm.top.toNat := hrec
    refine ⟨_, here, ?_, hx, List.Subset.refl _⟩
    rw [loadPart, if_neg Bool.false_ne_true, run_loadSlot (by omega)]

/-- A tuple with one more part at its front. -/
theorem packsAll_cons {fs : Forms} (hform : Packs form) (hall : PacksAll fs) :
    PacksAll (.cons boxed form fs) := by
  intro x rec w base place offset vm bs next hx hr hbase
  obtain ⟨here, rest, hx, hxs, rfl⟩ := hx
  have hbelow := hr.below
  have haside := hr.aside
  have hplace := hr.place_le
  have htop := vm.top.toNat_lt
  rw [below_cons, below_append] at hbelow
  rw [aside_cons, aside_append] at haside
  have hrec := hbelow.1
  simp only [Forms.record] at hrec
  rw [Forms.heads] at hplace haside
  obtain ⟨v, bs, hload, hv, hsub⟩ := run_loadPart hr.sane hx (by omega) hbelow.2.1
  have hw : (w + place).toNat = w.toNat + place.toNat := toNat_add_of_lt (by omega)
  have hfirst : Writes (packing form v (w + place) base) vm _ _ _ :=
    hform hv (hr.next hr.sane.becomes (fun b hb => hbelow.2.1 b (hsub hb))
      (Aside.part (fun b hb => haside.2.1 b (hsub hb)) (by omega) (by omega)) (by omega)
      (by simp [Forms.pieces_cons, Wire.tails]))
  have hhead : (form.piece x.1).head (vm.top - base).toNat = (form.piece x.1).head next := by
    cases hd : form.dynamic with
    | true => rw [toNat_sub_of_add (hbase (by simp [Forms.dynamic, hd]))]
    | false => simp [Wire.Piece.head, hd]
  rw [hw, hhead] at hfirst
  have hwidth : ((form.piece x.1).head next).length = form.head := by
    rw [Wire.Piece.length_head, form.width_piece]
  rw [Forms.pieces_cons, Wire.heads, Wire.tails, packingAll]
  refine Writes.after hload ?_
  refine hfirst.append ?_ fun vm' hb => ?_
  · rw [hwidth, Wire.length_heads, fs.headsSize_pieces]
    omega
  have hsame := hr.same hb (by rw [hwidth, Forms.heads]; omega)
  rw [same_cons, same_append] at hsame
  have hplace' : (place + form.headWord).toNat = place.toNat + form.head :=
    toNat_add_ofNat (by omega)
  have hoffset : (offset + UInt32.ofNat (form.place boxed)).toNat =
      offset.toNat + form.place boxed := toNat_add_ofNat (by omega)
  have hend : rec.toNat + offset.toNat + form.place boxed + fs.record =
      rec.toNat + offset.toNat + (form.place boxed + fs.record) := Nat.add_assoc ..
  have hxs' : fs.Holds false vm'.memory.byte
      (rec.toNat + (offset + UInt32.ofNat (form.place boxed)).toNat) x.2 rest := by
    rw [hoffset, ← Nat.add_assoc]
    exact hxs.congr (hsame.1.sub (Nat.le_add_right _ _) hend.le) hsame.2.2
  have hmore : Aside (w.toNat + place.toNat) (form.head + fs.heads)
      [⟨rec.toNat + offset.toNat + form.place boxed, fs.record⟩] :=
    haside.1.sub (Nat.le_add_right _ _) hend.le
  have hr' : Ready vm' (w.toNat + (place + form.headWord).toNat) fs.heads
      (Wire.tails (fs.pieces x.2)).length
      (⟨rec.toNat + (offset + UInt32.ofNat (form.place boxed)).toNat, fs.record⟩ :: rest) := by
    rw [hplace', hoffset, ← Nat.add_assoc, ← Nat.add_assoc]
    exact hr.next hb (below_cons.2 ⟨by simp only; omega, hbelow.2.2⟩)
      ((aside_cons.2 ⟨hmore, haside.2.2⟩).part (by omega) (by omega)) (by omega) (by simp [Forms.pieces_cons, Wire.tails])
  have h : Writes (packingAll fs rec w base _ _) vm' _ _ _ := hall hxs' hr' fun hd => by
    rw [hb.top_eq, ← hbase (by simp [Forms.dynamic, hd]), Nat.add_assoc]
  rw [hplace', ← Nat.add_assoc] at h
  rw [hwidth]
  exact h

theorem packsAll_nil : PacksAll .nil := by
  intro x rec w base place offset vm bs next _ hr _
  simp only [Writes, Forms.pieces, Wire.heads, Wire.tails, patch_nil, packingAll]
  exact (Runs.pure hr.sane ()).attempts

/-- A dynamic struct is a tuple behind an offset. -/
theorem packs_dynamic (hdyn : fields.dynamic = true) (hall : PacksAll fields) :
    Packs (.struct fields) := by
  intro x v w base vm bs hx hr
  obtain ⟨p, rest, rfl, hx, rfl⟩ := hx
  have hd : Form.dynamic (.struct fields) = true := hdyn
  have hhead : Form.head (.struct fields) = 32 := by simp [Form.head, hd]
  have htail : (Form.piece (.struct fields) x).tail = Wire.join (fields.pieces x) := by
    simp [Wire.Piece.tail, hd, Form.encode]
  have hoff : ∀ next, (Form.piece (.struct fields) x).head next = ofNatBE 32 next := by
    simp [Wire.Piece.head, hd]
  have htotal : (Wire.join (fields.pieces x)).length =
      fields.heads + (Wire.tails (fields.pieces x)).length := by
    rw [Wire.length_join, fields.headsSize_pieces]
  rw [hhead, htail] at hr
  rw [packing, if_pos hdyn, hoff, htail]
  by_cases hfit : fields.heads < 4294967296
  · have hsz : (UInt32.ofNat fields.heads).toNat = fields.heads := toNat_ofNat_of_lt hfit
    refine writes_tail rfl hr ?_ fun vm' hb => ?_
    · rw [hsz, Wire.length_heads, fields.headsSize_pieces]
    rw [hsz] at hb
    have hsame : Same vm.memory.byte vm'.memory.byte (⟨p.toNat, fields.record⟩ :: rest) := by
      rw [hb.byte_eq]
      exact hr.aside.same (by simp)
    rw [same_cons] at hsame
    have hx' : fields.Holds false vm'.memory.byte (p.toNat + (0 : UInt32).toNat) x rest :=
      hx.congr hsame.1 hsame.2
    exact hall hx' (hr.next hb hr.below hr.below.aside le_rfl (by omega))
      fun _ => by rw [hb.top_eq, fields.headsSize_pieces]
  · refine attempts_of_reaches hr ((tame_allocate _).then fun _ => (tame_storeWord _ _).then fun _ =>
      tame_packingAll fields _ _ _ _ _) (j := fields.heads) ?_ (by omega) (by omega)
    exact reaches_allocate fun tail => .after (tame_storeWord _ _) fun _ _ =>
      (reaches_packingAll fields p tail tail 0 0).mono (Nat.le_add_right _ _) (Nat.le_add_left _ _)

theorem packs_static (hstatic : fields.dynamic = false) (hall : PacksAll fields) :
    Packs (.struct fields) := by
  intro x v w base vm bs hx hr
  obtain ⟨p, rest, rfl, hx, rfl⟩ := hx
  have hd : Form.dynamic (.struct fields) = false := hstatic
  have hhead : Form.head (.struct fields) = fields.heads := by
    rw [Form.head, if_neg (by simp [hd]), Form.size, fields.heads_eq_size hstatic]
  have htails : Wire.tails (fields.pieces x) = [] :=
    Wire.tails_static (fields.pieces_static x hstatic)
  have htail : (Form.piece (.struct fields) x).tail = Wire.tails (fields.pieces x) := by
    simp [Wire.Piece.tail, hd, htails]
  have hvalue : ∀ next, (Form.piece (.struct fields) x).head next =
      Wire.heads next (fields.pieces x) := by
    intro next
    have h := Wire.heads_static (fields.pieces_static x hstatic)
      (Wire.headsSize (fields.pieces x)) next
    simp [Wire.Piece.head, hd, Form.encode, Wire.join, htails, h]
  rw [hhead, htail] at hr
  rw [packing, if_neg (by simp [hstatic]), htail, hvalue]
  exact hall hx hr fun hdyn => by simp [hstatic] at hdyn

/-- A value that is written in place takes nothing from the heap. -/
theorem PacksInPlace.packs (h : PacksInPlace form) (hstatic : form.dynamic = false)
    (hword : form.head = 32) : Packs form := by
  intro x v w base vm bs hx hr
  rw [hword] at hr
  have hhead : form.head = form.size := by simp [Form.head, hstatic]
  have hlen : w.toNat + (form.encode x).length ≤ vm.memory.size := by
    rw [form.length_encode x hstatic, ← hhead, hword]
    exact hr.place_le.trans hr.sane.top_le
  refine writes_of_static hstatic _ ?_
  obtain ⟨vm', hrun, hb⟩ := runs_write hr.sane hlen
  exact ⟨vm', (h hx ⟨hr.sane, hr.below.mono hr.sane.top_le, hr.aside, hr.place_le⟩).trans hrun, hb⟩

mutual

/-- The packer of a form writes the canonical encoding of a value. -/
theorem packs : ∀ form : Form, Packs form
  | .bool => packsInPlace_bool.packs rfl rfl
  | .int width => (packsInPlace_int width).packs rfl rfl
  | .address => packsInPlace_address.packs rfl rfl
  | .enum n => (packsInPlace_enum n).packs rfl rfl
  | .string => packs_string
  | .bytes n => (packsInPlace_bytes n).packs rfl rfl
  | .uid => packsInPlace_uid.packs rfl rfl
  | .id => packsInPlace_id.packs rfl rfl
  | .vector e => packs_vector (packs e)
  | .struct fields =>
    match h : fields.dynamic with
    | true => packs_dynamic h (packsAll fields)
    | false => packs_static h (packsAll fields)

theorem packsAll : ∀ fs : Forms, PacksAll fs
  | .nil => packsAll_nil
  | .cons _ form fs => packsAll_cons (packs form) (packsAll fs)

end

/-! ## Tuples -/

theorem four_le_toNat (fs : Forms) : 4 ≤ (4 + UInt32.ofNat fs.heads).toNat := by
  have hmod := fs.heads_mod
  have h4 : (4 : UInt32).toNat = 4 := rfl
  rw [UInt32.toNat_add, UInt32.toNat_ofNat', h4]
  omega

section

variable {vm : Vm} {fs : Forms} {x : fs.Val} {rec : UInt32} {bs : List Block} (hs : vm.Sane)
  (hx : fs.Holds false vm.memory.byte rec.toNat x bs)
  (hrec : rec.toNat + fs.record ≤ vm.top.toNat) (hbs : Below vm.top.toNat bs)

include hs hx hrec hbs

theorem attempts_packingTuple
    (hbounded : 4 + (fs.encode x).length < 4294967296 ∨ vm.memory.limit ≤ 65535) :
    Attempts (packingTuple fs rec) vm vm.top (4 + (fs.encode x).length)
      (patch vm.memory.byte vm.top.toNat
        (ofNatLE 4 (fs.encode x).length ++ fs.encode x)) := by
  have hlen : (fs.encode x).length = fs.heads + (Wire.tails (fs.pieces x)).length := by
    rw [Forms.encode, Wire.length_join, fs.headsSize_pieces]
  have h0 : (0 : UInt32).toNat = 0 := rfl
  have h4 : (4 : UInt32).toNat = 4 := rfl
  have hbelow : Below vm.top.toNat (⟨rec.toNat + (0 : UInt32).toNat, fs.record⟩ :: bs) :=
    below_cons.2 ⟨hrec, hbs⟩
  have hr : Ready vm vm.top.toNat 0 (4 + (fs.encode x).length)
      (⟨rec.toNat + (0 : UInt32).toNat, fs.record⟩ :: bs) :=
    ⟨hs, hbelow, hbelow.aside, le_rfl, hbounded⟩
  by_cases hfit : 4 + fs.heads < 4294967296
  swap
  · have hfour := four_le_toNat fs
    refine attempts_of_reaches hr (tame_packingTuple fs rec) (j := 4 + fs.heads) ?_ (by omega)
      (by omega)
    refine reaches_allocate fun out => .before (.of_lt fun hout => ?_) (tame_packingAll _ _ _ _ _ _)
      fun _ => tame_state.then fun _ => (tame_write _ (Nat.zero_le _)).then fun _ => .pure trivial
    have hout : (out + 4).toNat = out.toNat + 4 := toNat_add_ofNat (n := 4) (by omega)
    exact (reaches_packingAll fs rec (out + 4) (out + 4) 0 0).mono (by omega) (by omega)
  have hsz : (4 + UInt32.ofNat fs.heads).toNat = 4 + fs.heads :=
    toNat_add_ofNat (by rw [h4]; omega)
  have halloc := attempts_allocate hs (4 + UInt32.ofNat fs.heads)
  rw [hsz] at halloc
  rw [show 4 + (fs.encode x).length = 4 + fs.heads + (Wire.tails (fs.pieces x)).length by omega]
  refine halloc.bind fun vm₁ hb₁ => ?_
  have hend := vm₁.top.toNat_lt
  rw [hb₁.top_eq] at hend
  have hout : (vm.top + 4).toNat = vm.top.toNat + 4 :=
    toNat_add_ofNat (n := 4) (by omega)
  have hx₁ : fs.Holds false vm₁.memory.byte (rec.toNat + (0 : UInt32).toNat) x bs := by
    rw [hb₁.byte_eq]
    exact hx
  have hpack : Writes (packingAll fs rec (vm.top + 4) (vm.top + 4) 0 0) vm₁
      ((vm.top + 4).toNat + (0 : UInt32).toNat) _ _ :=
    packsAll fs hx₁ (hr.next hb₁ hbelow (hbelow.mono (by omega)).aside (by omega) (by omega))
      fun _ => show (vm.top + 4).toNat + fs.heads = _ by rw [hb₁.top_eq, hout, Nat.add_assoc]
  rw [Writes, hb₁.byte_eq, hb₁.top_eq, hout, h0, Nat.add_zero, ← Nat.add_assoc] at hpack
  have hheads : (Wire.heads fs.heads (fs.pieces x)).length = fs.heads := by
    rw [Wire.length_heads, fs.headsSize_pieces]
  have hbytes : patch (patch vm.memory.byte (vm.top.toNat + 4) (Wire.heads fs.heads (fs.pieces x)))
      (vm.top.toNat + 4 + fs.heads) (Wire.tails (fs.pieces x)) =
        patch vm.memory.byte (vm.top.toNat + 4) (fs.encode x) := by
    rw [Forms.encode, Wire.join, fs.headsSize_pieces, patch_append, hheads]
  rw [hbytes] at hpack
  have hfour : (ofNatLE 4 (fs.encode x).length).length = 4 := length_ofNatLE ..
  rw [patch_append, hfour, patch_comm (.inl (by omega))]
  refine (Nat.add_zero (Wire.tails (fs.pieces x)).length) ▸ hpack.bind fun vm₂ hb₂ => ?_
  have htop : vm₂.top.toNat = vm.top.toNat + 4 + (fs.encode x).length := by
    rw [hb₂.top_eq, hb₁.top_eq]
    omega
  have htop_lt := vm₂.top.toNat_lt
  have hcount : (vm₂.top - vm.top - 4).toNat = (fs.encode x).length := by
    have h : (vm₂.top - vm.top).toNat = vm₂.top.toNat - vm.top.toNat :=
      UInt32.toNat_sub_of_le _ _ (UInt32.le_iff_toNat_le.mpr (by omega))
    rw [UInt32.toNat_sub_of_le _ _ (UInt32.le_iff_toNat_le.mpr (by omega)), h]
    omega
  have hsize := hb₂.sane.top_le
  have hwrite : Runs (write vm.top.toNat (ofNatLE 4 (fs.encode x).length)) vm₂ () 0 _ :=
    runs_write hb₂.sane (by omega)
  rw [hb₂.byte_eq] at hwrite
  refine Attempts.of_run_eq (run_bind_ok (x := vm₂) rfl) ?_
  rw [store32, h0, Nat.add_zero, hcount]
  refine .bind₀ hwrite fun vm₃ hb₃ => ?_
  have hpure := Runs.pure hb₃.sane vm.top
  rw [hb₃.byte_eq] at hpure
  exact hpure.attempts

theorem packingTuple_ends (hlimit : vm.memory.limit ≤ 65535) :
    Runs (packingTuple fs rec) vm vm.top (4 + (fs.encode x).length)
        (patch vm.memory.byte vm.top.toNat
          (ofNatLE 4 (fs.encode x).length ++ fs.encode x)) ∨
      (∃ t, (packingTuple fs rec).run vm = .error (.trap t)) ∧
        vm.room < vm.top.toNat + 4 + (fs.encode x).length := by
  have hspace := hs.space_eq hlimit
  rcases attempts_packingTuple hs hx hrec hbs (.inr hlimit) with
    ⟨p, vm', hrun, -, -, rfl, hb⟩ | ⟨htrap, hfull⟩
  · exact .inl ⟨vm', hrun, hb⟩
  · exact .inr ⟨htrap, by omega⟩

end

end Codec

end MoveCodec
