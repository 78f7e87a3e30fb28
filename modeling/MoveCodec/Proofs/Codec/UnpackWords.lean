import MoveCodec.Proofs.Codec.ReadWords
import MoveCodec.Proofs.Codec.UnpackFrame
import MoveCodec.Proofs.Machine.Attempts

/-!
# Unpacking words

An unpacker of a word that comes to an end has built a value of its form, whatever bytes it was
given; and given the word of a value, it builds that value. It takes a number of bytes from the heap
that depends on the value alone, and traps only if there is no room for them.
-/
namespace MoveCodec

open Machine Machine.Compute Codec List Bytes

variable {form : Form} {v : Value} {n r p src : UInt32} {vm vm' vm₁ : Vm} {u : Unit}

/-! ## Forms that can be built -/

mutual

/-- The fields of structs stand in their records, not behind references, and sizes of records and
numbers of variants can be written in 32 bits. -/
def Form.compact : Form → Bool
  | .enum n => decide (n < UInt32.size)
  | .vector e => e.compact
  | .struct fields => fields.unboxed && decide (fields.record < UInt32.size) && fields.compact
  | _ => true

def Forms.compact : Forms → Bool
  | .nil => true
  | .cons _ f fs => f.compact && fs.compact

/-- No part stands behind a reference. -/
def Forms.unboxed : Forms → Bool
  | .nil => true
  | .cons boxed _ fs => !boxed && fs.unboxed

end

mutual

/-- Values that a decoder lets pass: vectors and texts are not longer than its bound, and the
indices of variants take one byte. -/
def Form.Moderate : (form : Form) → form.Val → Prop
  | .enum _, (i : Fin _) => i.val < 256
  | .string, (s : Bytes) => s.length ≤ maxElements.toNat
  | .vector e, (xs : List e.Val) => xs.length ≤ maxElements.toNat ∧ ∀ x ∈ xs, e.Moderate x
  | .struct fields, x => fields.Moderate x
  | .bool, _ | .int _, _ | .address, _ | .bytes _, _ | .uid, _ | .id, _ => True

def Forms.Moderate : (fs : Forms) → fs.Val → Prop
  | .nil, _ => True
  | .cons _ f fs, (x : f.Val × fs.Val) => f.Moderate x.1 ∧ fs.Moderate x.2

end

mutual

/-- Bytes of the heap that the decoded value takes up. -/
def Form.footprint : (form : Form) → form.Val → Nat
  | .bool, _ | .uid, _ => 0
  | .int width, _ =>
    match width with
    | .w8 | .w16 | .w32 | .w64 => 0
    | .w128 => 16
    | .w256 => 32
  | .address, _ | .bytes _, _ => 32
  | .enum _, _ => 4
  | .id, _ => 36
  | .string, (s : Bytes) => 8 + s.length * 4 + 4
  | .vector e, (xs : List e.Val) =>
    8 + xs.length * slotSize e.wide + (xs.map fun x => e.footprint x).sum
  | .struct fields, x => fields.record + fields.footprint x

/-- Bytes of the heap that the decoded values of a record take up, beside the record. -/
def Forms.footprint : (fs : Forms) → fs.Val → Nat
  | .nil, _ => 0
  | .cons boxed f fs, (x : f.Val × fs.Val) =>
    f.footprint x.1 + (if boxed then slotSize f.wide else 0) + fs.footprint x.2

end

/-! ## Blocks -/

/-- A block is taken from the heap and filled. -/
theorem built_block {bs : Bytes} (hs : vm.Sane)
    (halloc : (allocate n).run vm = .ok (p, vm₁)) (hlen : bs.length = n.toNat)
    (hwrite : (write p.toNat bs).run vm₁ = .ok (u, vm')) :
    view vm'.memory.byte p.toNat bs.length = bs ∧ vm.Grows vm' ∧
      Fresh vm.top.toNat vm'.top.toNat [⟨p.toNat, bs.length⟩] ∧
      vm'.top.toNat = vm.top.toNat + n.toNat := by
  obtain ⟨rfl, hb⟩ := allocate_becomes hs halloc
  obtain ⟨-, hb'⟩ := write_becomes hb.sane hwrite
  have htop := hb.top_eq
  have htop' := hb'.top_eq
  have hgrows : vm.Grows vm₁ := hb.edits fun _ _ _ => rfl
  have he : Vm.Edits vm.top.toNat (vm.top.toNat + bs.length) vm₁ vm' :=
    hb'.edits_patch le_rfl le_rfl
  refine ⟨?_, (hgrows.edits.trans he).grows le_rfl, fresh_single le_rfl ?_, by omega⟩
  · rw [hb'.byte_eq]
    exact view_patch
  · simp only [Block.stop]
    omega

/-- A word is copied to a new block. -/
theorem built_copy (hs : vm.Sane) (h : (unpackCopy r).run vm = .ok (p, vm')) :
    r.toNat + 32 ≤ 4294967296 ∧
      view vm'.memory.byte p.toNat 32 = view vm.memory.byte r.toNat 32 ∧ vm.Grows vm' ∧
      Fresh vm.top.toNat vm'.top.toNat [⟨p.toNat, 32⟩] := by
  obtain ⟨p, vm₁, halloc, h₁⟩ := run_bind_eq_ok.mp h
  obtain ⟨_, vm₂, hcopy, h₂⟩ := run_bind_eq_ok.mp h₁
  obtain ⟨bs, vm₃, hread, hwrite⟩ := run_bind_eq_ok.mp hcopy
  obtain ⟨hfit, rfl, rfl⟩ := read_eq_ok hread
  cases h₂
  have h32 : (32 : UInt32).toNat = 32 := rfl
  rw [h32] at hfit hwrite
  obtain ⟨hview, hgrows, hfresh, -⟩ := built_block hs halloc (by simp) hwrite
  obtain ⟨-, hb⟩ := allocate_becomes hs halloc
  rw [length_view] at hview hfresh
  rw [hb.byte_eq] at hview
  exact ⟨hfit.trans hb.sane.size_le, hview, hgrows, hfresh⟩

theorem tries_unpackCopy (hs : vm.Sane) (hr : r.toNat + 32 ≤ vm.memory.size) :
    Tries (unpackCopy r) vm 32 fun _ _ => True := by
  refine (tries_allocate hs 32).bind (k := 0) fun p vm₁ hrun _ => ?_
  obtain ⟨rfl, hb⟩ := allocate_becomes hs hrun
  have hsize := hb.size_le
  have htop := hb.top_eq
  have h32 : (32 : UInt32).toNat = 32 := rfl
  have hfit := hb.sane.top_le
  have hcopy : Runs (copy vm.top r 32) vm₁ () 0 _ := runs_copy hb.sane (by omega) (by omega)
  obtain ⟨vm₂, hcopy, hb'⟩ := hcopy
  exact .becomes hcopy hb' (.pure trivial)

theorem tries_cellOf (hs : vm.Sane) (v : Value) :
    Tries (cellOf v) vm (slotSize v.wide) fun _ _ => True := by
  have halloc := tries_allocate hs (UInt32.ofNat (slotSize v.wide))
  rw [toNat_slotWord] at halloc
  refine halloc.bind (k := 0) fun p vm₁ hrun _ => ?_
  obtain ⟨rfl, hb⟩ := allocate_becomes hs hrun
  have htop := hb.top_eq
  have h0 : (0 : UInt32).toNat = 0 := rfl
  rw [toNat_slotWord] at htop
  rw [storeSlot_eq]
  exact .write_step hb.sane (by rw [length_slotBytes]; omega) fun _ _ _ => .pure trivial

/-! ## Values -/

/-- The value was built, and the register `v` stands for it. -/
def Rebuilds (form : Form) (x : form.Val) (vm : Vm) (v : Value) (vm' : Vm) : Prop :=
  ∃ bs, form.Holds true vm'.memory.byte v x bs ∧ vm.Grows vm' ∧
    Fresh vm.top.toNat vm'.top.toNat bs

theorem Rebuilds.of_seen {x : form.Val} {vm : Vm} {v : Value} {vm' : Vm}
    {seen : List Look} (hs : vm.Sane) (h : Rebuilds form x { vm with seen } v vm') :
    Rebuilds form x vm v vm' := by
  obtain ⟨bs, hx, hgrows, hfresh⟩ := h
  exact ⟨bs, hx, (Vm.grows_seen hs seen).trans hgrows, hfresh⟩

/-- Given the word of a value, the unpacker builds the value. -/
def WordRebuilds (form : Form) : Prop :=
  ∀ ⦃x : form.Val⦄ ⦃r base : UInt32⦄ ⦃vm : Vm⦄, vm.Sane → form.Moderate x →
    r.toNat + 32 ≤ vm.memory.size → view vm.memory.byte r.toNat 32 = form.encode x →
    Tries (unpacking form r base) vm (form.footprint x) (Rebuilds form x vm)

/-- From `vm` to `vm'` a value of the form was built, and the register `v` stands for it. -/
def Builds (form : Form) (vm : Vm) (v : Value) (vm' : Vm) : Prop :=
  ∃ x, form.Moderate x ∧ Rebuilds form x vm v vm'

theorem Builds.of_seen {seen : List Look} (hs : vm.Sane) (h : Builds form { vm with seen } v vm') :
    Builds form vm v vm' := by
  obtain ⟨x, hmoderate, hx⟩ := h
  exact ⟨x, hmoderate, hx.of_seen hs⟩

/-- Every run of the unpacker that comes to an end builds a value. -/
def UnpackBuilds (form : Form) : Prop :=
  ∀ ⦃r base : UInt32⦄ ⦃vm vm' : Vm⦄ ⦃v : Value⦄, vm.Sane →
    (unpacking form r base).run vm = .ok (v, vm') → Builds form vm v vm'

/-! ## Words -/

theorem builds_bool : UnpackBuilds .bool := by
  intro r base vm vm' v hs h
  rw [unpacking] at h
  obtain ⟨x, vm₁, hload, h₁⟩ := run_bind_eq_ok.mp h
  obtain ⟨_, vm₂, htrap, h₂⟩ := run_bind_eq_ok.mp h₁
  obtain ⟨-, -, -, rfl⟩ := loadWord_eq_ok hs (by decide) hload
  obtain ⟨hle, rfl⟩ := trapWhen_eq_ok htrap
  cases h₂
  refine ⟨x == 1, trivial, [], ⟨?_, rfl⟩, Vm.grows_seen hs _, fresh_nil⟩
  have hx : x = 0 ∨ x = 1 := by
    have hle : ¬ (1 < x) := by simpa using hle
    rw [UInt32.lt_iff_toNat_lt] at hle
    have h1 : (1 : UInt32).toNat = 1 := rfl
    rcases Nat.lt_or_ge x.toNat 1 with h | h
    · exact .inl (UInt32.toNat_inj.1 (by simpa using h))
    · exact .inr (UInt32.toNat_inj.1 (by omega))
  rcases hx with rfl | rfl <;> rfl

theorem rebuilds_bool : WordRebuilds .bool := by
  intro b r base vm hs _ hfit hview
  rw [Form.encode] at hview
  have hb : b.toNat < 256 ^ 1 := by cases b <;> decide
  rw [unpacking]
  refine .step (run_loadWord hs (by decide) hfit hview hb) rfl le_rfl ?_
  refine .step (run_trapWhen_false (by cases b <;> decide)) rfl le_rfl (.pure ?_)
  refine ⟨[], ?_, Vm.grows_seen hs _, fresh_nil⟩
  rw [Form.Holds]
  exact ⟨by cases b <;> rfl, rfl⟩

section

variable (width : IntWidth)

include width

theorem builds_small {n : Nat} (hn : n ≤ 4) (hbits : 256 ^ n ≤ 2 ^ width.bits)
    (hholds : ∀ f (v : Value) (k : Nat), width.Holds f v k [] ↔ v = .i32 (UInt32.ofNat k))
    {x : UInt32} (hs : vm.Sane) (h : (loadWord r n).run vm = .ok (x, vm')) :
    Builds (.int width) vm (.i32 x) vm' := by
  obtain ⟨-, -, hlt, rfl⟩ := loadWord_eq_ok hs hn h
  refine ⟨BitVec.ofNat _ x.toNat, trivial, [], ?_, Vm.grows_seen hs _, fresh_nil⟩
  have hval : (BitVec.ofNat width.bits x.toNat).toNat = x.toNat := by
    rw [BitVec.toNat_ofNat]
    exact Nat.mod_eq_of_lt (hlt.trans_le hbits)
  refine (hholds _ _ _).2 ?_
  rw [hval, UInt32.ofNat_toNat]

theorem rebuilds_small {n : Nat} (hn : n ≤ 4) (hbits : 2 ^ width.bits ≤ 256 ^ n)
    (hholds : ∀ f (v : Value) (k : Nat), width.Holds f v k [] ↔ v = .i32 (UInt32.ofNat k))
    (x : BitVec width.bits) (hs : vm.Sane) (hfit : r.toNat + 32 ≤ vm.memory.size)
    (hview : view vm.memory.byte r.toNat 32 = ofNatBE 32 x.toNat) :
    Tries (Value.i32 <$> loadWord r n) vm 0 (Rebuilds (.int width) x vm) := by
  refine .map (.inl ⟨_, _, run_loadWord hs hn hfit hview (x.isLt.trans_le hbits), rfl, .inl le_rfl,
    [], ?_, Vm.grows_seen hs _, fresh_nil⟩)
  rw [Form.Holds]
  exact (hholds _ _ _).2 rfl

theorem builds_reversed (hn : n.toNat = width.bytes)
    (hholds : ∀ f (p : UInt32) (k : Nat), number f p.toNat width.bytes = k →
      width.Holds f (.i32 p) k [⟨p.toNat, width.bytes⟩])
    (hbits : 256 ^ width.bytes = 2 ^ width.bits) (hs : vm.Sane)
    (halloc : (allocate n).run vm = .ok (p, vm₁))
    (h : (reverseBlock n.toNat src p).run vm₁ = .ok (u, vm')) :
    Builds (.int width) vm (.i32 p) vm' := by
  obtain ⟨bs, vm₂, hread, hwrite⟩ := run_bind_eq_ok.mp h
  obtain ⟨-, rfl, rfl⟩ := read_eq_ok hread
  obtain ⟨hview, hgrows, hfresh, -⟩ := built_block hs halloc (by simp) hwrite
  rw [length_reverse, length_view, hn] at hview hfresh
  refine ⟨BitVec.ofNat _ (number vm'.memory.byte p.toNat width.bytes), trivial, _, hholds _ _ _ ?_,
    hgrows, hfresh⟩
  have hlt : number vm'.memory.byte p.toNat width.bytes < 256 ^ width.bytes := number_lt
  rw [BitVec.toNat_ofNat, Nat.mod_eq_of_lt (hbits ▸ hlt)]

theorem rebuilds_reversed (hn : n.toNat = width.bytes)
    (hholds : ∀ f (p : UInt32) (k : Nat), number f p.toNat width.bytes = k →
      width.Holds f (.i32 p) k [⟨p.toNat, width.bytes⟩])
    (hbits : 256 ^ width.bytes = 2 ^ width.bits) (x : BitVec width.bits) (hs : vm.Sane)
    (hfit : src.toNat + width.bytes ≤ vm.memory.size)
    (hview : view vm.memory.byte src.toNat width.bytes = ofNatBE width.bytes x.toNat) : Tries (do
      let p ← allocate n
      reverseBlock n.toNat src p
      return Value.i32 p) vm width.bytes (Rebuilds (.int width) x vm) := by
  rw [← hn]
  refine (tries_allocate hs n).bind (k := 0) fun p vm₁ hrun _ => ?_
  obtain ⟨rfl, hb⟩ := allocate_becomes hs hrun
  have hsize := hb.size_le
  have htop := hb.top_eq
  have hfit' := hb.sane.top_le
  have hcopy : Runs (reverseBlock n.toNat src vm.top) vm₁ () 0 _ :=
    runs_reverseBlock src vm.top n.toNat hb.sane (by omega) (by omega)
  obtain ⟨vm₂, hcopy, hb'⟩ := hcopy
  refine .becomes hcopy hb' (.pure ?_)
  obtain ⟨bs, vm₃, hread, hwrite⟩ := run_bind_eq_ok.mp hcopy
  obtain ⟨-, rfl, rfl⟩ := read_eq_ok hread
  obtain ⟨hbytes, hgrows, hfresh, -⟩ := built_block hs hrun (by simp) hwrite
  rw [length_reverse, length_view, hn] at hbytes hfresh
  refine ⟨_, ?_, hgrows, hfresh⟩
  rw [Form.Holds]
  refine hholds _ _ _ ?_
  rw [number, hbytes, hb.byte_eq, hview, ofNatBE, reverse_reverse, toNatLE_ofNatLE]
  exact Nat.mod_eq_of_lt (x.isLt.trans_eq hbits.symm)

theorem builds_int : UnpackBuilds (.int width) := by
  intro r base vm vm' v hs h
  cases width with
  | w8 | w16 | w32 =>
    obtain ⟨x, hload, rfl⟩ := run_map_eq_ok h
    refine builds_small _ (by decide) (by decide) (fun _ _ _ => ?_) hs hload
    exact and_iff_left rfl
  | w64 =>
    rw [unpacking, run_look_bind] at h
    obtain ⟨_, vm₁, hcheck, h₁⟩ := run_bind_eq_ok.mp h
    obtain ⟨x, vm₂, hload, h₂⟩ := run_bind_eq_ok.mp h₁
    obtain ⟨-, rfl⟩ := requireZero_eq_ok hcheck
    obtain ⟨bs, hread, -⟩ := run_map_eq_ok hload
    obtain ⟨-, -, rfl⟩ := read_eq_ok hread
    cases h₂
    have hval : UInt64.ofNat (BitVec.ofNat 64 (swap64 x).toNat).toNat = swap64 x := by
      rw [BitVec.toNat_ofNat, Nat.mod_eq_of_lt (UInt64.toNat_lt _), UInt64.ofNat_toNat]
    exact ⟨BitVec.ofNat 64 (swap64 x).toNat, trivial, [], ⟨congrArg Value.i64 hval.symm, rfl⟩,
      Vm.grows_seen hs _, fresh_nil⟩
  | w128 =>
    rw [unpacking, run_look_bind] at h
    obtain ⟨_, vm₁, hcheck, h₁⟩ := run_bind_eq_ok.mp h
    obtain ⟨p, vm₂, halloc, h₂⟩ := run_bind_eq_ok.mp h₁
    obtain ⟨_, vm₃, hcopy, h₃⟩ := run_bind_eq_ok.mp h₂
    obtain ⟨-, rfl⟩ := requireZero_eq_ok hcheck
    cases h₃
    exact (builds_reversed .w128 (n := 16) rfl (fun _ p _ h => ⟨p, rfl, h, rfl⟩) (by decide) (hs.seen _)
      halloc hcopy).of_seen hs
  | w256 =>
    rw [unpacking, run_look_bind] at h
    obtain ⟨p, vm₂, halloc, h₂⟩ := run_bind_eq_ok.mp h
    obtain ⟨_, vm₃, hcopy, h₃⟩ := run_bind_eq_ok.mp h₂
    cases h₃
    exact (builds_reversed .w256 (n := 32) rfl (fun _ p _ h => ⟨p, rfl, h, rfl⟩) (by decide) (hs.seen _)
      halloc hcopy).of_seen hs

theorem rebuilds_int : WordRebuilds (.int width) := by
  intro x r base vm hs _ hfit hview
  rw [Form.encode] at hview
  have hsize := hs.size_le
  cases width with
  | w8 | w16 | w32 =>
    refine rebuilds_small _ (by decide) (by decide) (fun _ _ _ => ?_) x hs hfit hview
    exact and_iff_left rfl
  | w64 =>
    have hlt : BitVec.toNat x < 256 ^ 8 := x.isLt
    rw [show (32 : Nat) = 24 + 8 from rfl, view_add, ofNatBE_of_lt hlt] at hview
    obtain ⟨hzero, hlast⟩ := append_inj hview (by simp)
    rw [unpacking]
    refine .look ?_
    have hfit' : r.toNat + 24 ≤ vm.memory.size := by omega
    refine .step (run_requireZero (hs.seen _) hfit' hzero) rfl le_rfl ?_
    refine .step (run_load64 hfit) rfl le_rfl (.pure ?_)
    refine ⟨[], ?_, Vm.grows_seen hs _, fresh_nil⟩
    rw [Form.Holds]
    exact ⟨congrArg Value.i64 (swap64_number hlast hlt), rfl⟩
  | w128 =>
    have hlt : BitVec.toNat x < 256 ^ 16 := x.isLt
    rw [show (32 : Nat) = 16 + 16 from rfl, view_add, ofNatBE_of_lt hlt] at hview
    obtain ⟨hzero, hlast⟩ := append_inj hview (by simp)
    have hr16 : (r + 16).toNat = r.toNat + 16 := toNat_add_ofNat (n := 16) (by omega)
    rw [unpacking]
    refine .look ?_
    have hfit₁ : r.toNat + 16 ≤ vm.memory.size := by omega
    have hfit₂ : (r + 16).toNat + 16 ≤ vm.memory.size := by omega
    rw [← hr16] at hlast
    refine .step (run_requireZero (hs.seen _) hfit₁ hzero) rfl le_rfl ?_
    exact (rebuilds_reversed .w128 (n := 16) rfl (fun _ p _ h => ⟨p, rfl, h, rfl⟩) (by decide) x
      (hs.seen (⟨r.toNat, 32, false⟩ :: vm.seen)) hfit₂ hlast).mono fun _ _ _ h => h.of_seen hs
  | w256 =>
    rw [unpacking]
    refine .look ?_
    exact (rebuilds_reversed .w256 (n := 32) rfl (fun _ p _ h => ⟨p, rfl, h, rfl⟩) (by decide) x
      (hs.seen (⟨r.toNat, 32, false⟩ :: vm.seen)) hfit hview).mono fun _ _ _ h => h.of_seen hs

end

/-- A word is checked and copied. -/
theorem rebuilds_copied {x : form.Val} (hs : vm.Sane)
    (hfit : r.toNat + 32 ≤ vm.memory.size) (hview : view vm.memory.byte r.toNat 32 = form.encode x)
    (hholds : ∀ f (p : UInt32), view f p.toNat 32 = form.encode x →
      form.Holds true f (.i32 p) x [⟨p.toNat, 32⟩]) :
    Tries (Value.i32 <$> unpackCopy r) vm 32 (Rebuilds form x vm) := by
  refine .map ((tries_unpackCopy hs hfit).mono fun p vm' hrun _ => ?_)
  obtain ⟨-, hcopy, hgrows, hfresh⟩ := built_copy hs hrun
  exact ⟨_, hholds _ _ (hcopy.trans hview), hgrows, hfresh⟩

theorem builds_address : UnpackBuilds .address := by
  intro r base vm vm' v hs h
  rw [unpacking, run_look_bind] at h
  obtain ⟨_, vm₁, hcheck, h₁⟩ := run_bind_eq_ok.mp h
  obtain ⟨hzero, rfl⟩ := requireZero_eq_ok hcheck
  obtain ⟨p, hcopy, rfl⟩ := run_map_eq_ok h₁
  obtain ⟨hfit, hview, hgrows, hfresh⟩ := built_copy (hs.seen _) hcopy
  have hz : view vm.memory.byte r.toNat 12 = List.replicate 12 0 :=
    view_of_requireZero hzero (by omega)
  have hbytes : view vm'.memory.byte p.toNat 32 =
      List.replicate 12 0 ++ view vm.memory.byte (r.toNat + 12) 20 := by
    rw [hview, ← hz]
    exact view_add (m := 12) (n := 20)
  refine Builds.of_seen hs ⟨⟨(view vm.memory.byte (r.toNat + 12) 20).toArray, by simp⟩, trivial, _,
    ⟨p, rfl, ?_, rfl⟩, hgrows, ?_⟩
  · simpa using hbytes
  · simpa using hfresh

theorem rebuilds_address : WordRebuilds .address := by
  intro x r base vm hs _ hfit hview
  have hzero : view vm.memory.byte r.toNat 12 = List.replicate 12 0 := by
    rw [Form.encode, show (32 : Nat) = 12 + 20 from rfl, view_add] at hview
    exact (append_inj hview (by simp)).1
  have hfit' : r.toNat + 12 ≤ vm.memory.size := by omega
  rw [unpacking]
  refine .look (.step (run_requireZero (hs.seen _) hfit' hzero) rfl le_rfl ?_)
  refine (rebuilds_copied (x := x) (hs.seen (⟨r.toNat, 32, false⟩ :: vm.seen)) hfit hview
    fun f p h => ?_).mono fun _ _ _ h => h.of_seen hs
  rw [Form.Holds]
  rw [Form.encode] at h
  exact ⟨p, rfl, by simpa using h, by simp⟩

theorem builds_bytes (n : Fin 33) : UnpackBuilds (.bytes n) := by
  intro r base vm vm' v hs h
  have hn := n.isLt
  rw [unpacking, run_look_bind] at h
  obtain ⟨_, vm₁, hcheck, h₁⟩ := run_bind_eq_ok.mp h
  obtain ⟨hzero, rfl⟩ := requireZero_eq_ok hcheck
  obtain ⟨p, hcopy, rfl⟩ := run_map_eq_ok h₁
  obtain ⟨hfit, hview, hgrows, hfresh⟩ := built_copy (hs.seen _) hcopy
  have hbytes : view vm'.memory.byte p.toNat 32 =
      view vm.memory.byte r.toNat n ++ List.replicate (32 - n) 0 := by
    rw [hview, show (32 : Nat) = n.val + (32 - n.val) by omega, view_add]
    congr 1
    rcases Nat.lt_or_ge n.val 32 with hlt | hge
    · have hrn : (r + UInt32.ofNat n).toNat = r.toNat + n := toNat_add_ofNat (by omega)
      have := view_of_requireZero hzero (by omega)
      rw [hrn] at this
      rw [Nat.add_sub_cancel_left]
      exact this
    · have h0 : 32 - n.val = 0 := by omega
      simp [h0]
  refine Builds.of_seen hs ⟨⟨(view vm.memory.byte r.toNat n).toArray, by simp⟩, trivial, _,
    ⟨p, rfl, ?_, rfl⟩, hgrows, ?_⟩
  · simpa [show n.val + (32 - n.val) = 32 by omega] using hbytes
  · simpa [show n.val + (32 - n.val) = 32 by omega] using hfresh

theorem rebuilds_bytes (n : Fin 33) : WordRebuilds (.bytes n) := by
  intro x r base vm hs _ hfit hview
  have hn := n.isLt
  have hsize := hs.size_le
  have hcheck : ∀ seen, (requireZero (32 - n) (r + UInt32.ofNat n)).run { vm with seen } =
      .ok ((), { vm with seen }) := by
    intro seen
    rcases Nat.lt_or_ge n.val 32 with hlt | hge
    · have hrn : (r + UInt32.ofNat n).toNat = r.toNat + n := toNat_add_ofNat (by omega)
      refine run_requireZero (hs.seen seen) ?_ ?_
      · rw [hrn]
        exact (show r.toNat + n + (32 - n) ≤ vm.memory.size by omega)
      · rw [hrn]
        rw [Form.encode, show (32 : Nat) = n.val + (32 - n.val) by omega, view_add] at hview
        have := (append_inj hview (by simp)).2
        rw [Nat.add_sub_cancel_left] at this
        exact this
    · have h0 : 32 - n.val = 0 := by omega
      rw [h0]
      rfl
  rw [unpacking]
  refine .look (.step (hcheck _) rfl le_rfl ?_)
  refine (rebuilds_copied (x := x) (hs.seen (⟨r.toNat, 32, false⟩ :: vm.seen)) hfit hview
    fun f p h => ?_).mono fun _ _ _ h => h.of_seen hs
  rw [Form.Holds]
  rw [Form.encode] at h
  exact ⟨p, rfl, by simpa [show n.val + (32 - n.val) = 32 by omega] using h,
    by simp [show n.val + (32 - n.val) = 32 by omega]⟩

/-- A number is put into a cell. -/
theorem builds_enum (n : Nat) : UnpackBuilds (.enum n) := by
  intro r base vm vm' v hs h
  rw [unpacking] at h
  obtain ⟨x, vm₁, hload, h₁⟩ := run_bind_eq_ok.mp h
  obtain ⟨_, vm₂, htrap, h₂⟩ := run_bind_eq_ok.mp h₁
  obtain ⟨-, -, hlt, rfl⟩ := loadWord_eq_ok hs (by decide) hload
  obtain ⟨hvariant, rfl⟩ := trapWhen_eq_ok htrap
  obtain ⟨cell, hcell, rfl⟩ := run_map_eq_ok h₂
  have hvariant : x.toNat < n := by
    have hnot : ¬ (UInt32.ofNat n ≤ x) := by simpa using hvariant
    rw [UInt32.le_iff_toNat_le, UInt32.toNat_ofNat'] at hnot
    have := Nat.mod_le n (2 ^ 32)
    omega
  have hx : Value.i32 x = .i32 (UInt32.ofNat x.toNat) ∧ x.toNat < UInt32.size ∧
      ([] : List Block) = [] := ⟨by rw [UInt32.ofNat_toNat], x.toNat_lt, rfl⟩
  obtain ⟨hgrows, hat, hfresh, -⟩ := put_cell
    (fun _ v bs => v = .i32 (UInt32.ofNat x.toNat) ∧ x.toNat < UInt32.size ∧ bs = [])
    (fun _ h => h) (Vm.grows_seen hs _) fresh_nil hx hcell
  refine ⟨⟨x.toNat, hvariant⟩, ?_, _, ?_, hgrows, hfresh⟩
  · rw [Form.Moderate]
    simpa using hlt
  · rw [Form.Holds]
    exact hat

/-- A variant is rebuilt if its number passes as a byte, and the comparison with the number of
variants. -/
theorem rebuilds_variant {n : Nat} {i : Fin n} (hs : vm.Sane) (hbyte : i.val < 256)
    (hn : i.val < (UInt32.ofNat n).toNat) (hfit : r.toNat + 32 ≤ vm.memory.size)
    (hword : wordAt vm.memory.byte r.toNat i) :
    Tries (unpacking (.enum n) r base) vm 4 (Rebuilds (.enum n) i vm) := by
  have hval : (UInt32.ofNat i).toNat = i := toNat_ofNat_of_lt (by omega)
  have hvariant : decide (UInt32.ofNat n ≤ UInt32.ofNat i) = false := by
    rw [decide_eq_false_iff_not, UInt32.le_iff_toNat_le, hval]
    exact Nat.not_le.2 hn
  rw [unpacking]
  refine .step (run_loadWord hs (by decide) hfit hword (by simpa using hbyte)) rfl le_rfl ?_
  refine .step (run_trapWhen_false hvariant) rfl le_rfl ?_
  refine .map ((tries_cellOf (hs.seen _) (.i32 (UInt32.ofNat i))).mono fun cell vm' hcell _ => ?_)
  obtain ⟨hgrows, hat, hfresh, -⟩ := put_cell
    (fun _ v bs => v = .i32 (UInt32.ofNat i) ∧ i.val < UInt32.size ∧ bs = [])
    (fun _ h => h) (Vm.grows_seen hs _) fresh_nil ⟨rfl, hbyte.trans (by decide), rfl⟩ hcell
  refine ⟨_, ?_, hgrows, hfresh⟩
  rw [Form.Holds]
  exact hat

theorem rebuilds_enum {n : Nat} (hn : n < UInt32.size) : WordRebuilds (.enum n) := by
  intro i r base vm hs hmoderate hfit hview
  rw [Form.Moderate] at hmoderate
  rw [Form.encode] at hview
  exact rebuilds_variant hs hmoderate (by rw [toNat_ofNat_of_lt hn]; exact i.isLt) hfit hview

theorem builds_id : UnpackBuilds .id := by
  intro r base vm vm' v hs h
  rw [unpacking, run_look_bind] at h
  obtain ⟨p, vm₁, hcopy, h₁⟩ := run_bind_eq_ok.mp h
  obtain ⟨cell, hcell, rfl⟩ := run_map_eq_ok h₁
  obtain ⟨-, -, hgrows, hfresh⟩ := built_copy (hs.seen _) hcopy
  let w : Word := ⟨(view vm₁.memory.byte p.toNat 32).toArray, by simp⟩
  have hw : BytesAt vm₁.memory.byte (.i32 p) w.toList [⟨p.toNat, 32⟩] :=
    ⟨p, rfl, by simp [w], by simp [w]⟩
  obtain ⟨hgrows', hat, hfresh', -⟩ := put_cell (fun f v bs => BytesAt f v w.toList bs)
    (fun hsame h => h.congr hsame) hgrows hfresh hw hcell
  exact Builds.of_seen hs ⟨w, trivial, _, hat, hgrows', hfresh'⟩

theorem rebuilds_id : WordRebuilds .id := by
  intro w r base vm hs _ hfit hview
  rw [Form.encode] at hview
  have hlen : w.toList.length = 32 := by simp
  rw [unpacking]
  refine .look ?_
  have hs' := hs.seen (⟨r.toNat, 32, false⟩ :: vm.seen)
  refine (tries_unpackCopy hs' hfit).bind (k := 4) fun p vm₁ hcopy _ => ?_
  obtain ⟨-, hbytes, hgrows, hfresh⟩ := built_copy hs' hcopy
  have hw : BytesAt vm₁.memory.byte (.i32 p) w.toList [⟨p.toNat, 32⟩] :=
    ⟨p, rfl, by rw [hlen]; exact hbytes.trans hview, by rw [hlen]⟩
  refine .map ((tries_cellOf hgrows.sane (.i32 p)).mono fun cell vm' hcell _ => ?_)
  obtain ⟨hgrows', hat, hfresh', -⟩ := put_cell (fun f v bs => BytesAt f v w.toList bs)
    (fun hsame h => h.congr hsame) hgrows hfresh hw hcell
  refine Rebuilds.of_seen hs ⟨_, ?_, hgrows', hfresh'⟩
  rw [Form.Holds]
  exact hat

end MoveCodec
