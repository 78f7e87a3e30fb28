import MoveCodec.Proofs.Codec.Words
import MoveCodec.Proofs.Machine.Tame

/-!
# Packing without room

When sizes wrap around, an allocation can be too small for what is written behind it. Heads are
written in order, though, and none beyond the end of memory. So in a memory that cannot grow to
4 GiB a run that comes to an end has all its heads inside the memory, and their size did not wrap.
-/
namespace MoveCodec.Codec

open Machine Machine.Compute

/-! ## Traps -/

section

variable {H : Nat}

theorem tame_load32 (a b : UInt32) : Tame H (load32 a b) := (tame_read _ _).map _

theorem tame_loadSlot (wide : Bool) (a b : UInt32) : Tame H (loadSlot wide a b) := by
  unfold loadSlot
  split
  · exact ((tame_read _ _).map _).map _
  · exact (tame_load32 a b).map _

theorem tame_loadPart (boxed wide : Bool) (rec offset : UInt32) :
    Tame H (loadPart boxed wide rec offset) := by
  unfold loadPart
  split
  · exact (tame_load32 _ _).then fun _ => tame_loadSlot _ _ _
  · exact tame_loadSlot _ _ _

theorem tame_copy {dst : UInt32} (src n : UInt32) (h : H ≤ dst.toNat) : Tame H (copy dst src n) :=
  (tame_read _ _).then fun _ => tame_write _ h

theorem tame_reverseBlock {dst : UInt32} (n : Nat) (src : UInt32) (h : H ≤ dst.toNat) :
    Tame H (reverseBlock n src dst) :=
  (tame_read _ _).then fun _ => tame_write _ h

end

theorem tame_storeWord (a v : UInt32) : Tame 0 (storeWord a v) := by
  rw [storeWord_eq]
  exact tame_write _ (Nat.zero_le _)

theorem tame_packBytes (n p w : UInt32) : Tame 0 (packBytes n p w) := by
  refine (tame_copy _ _ (Nat.zero_le _)).then fun _ => ?_
  split
  · exact .pure trivial
  · exact tame_write _ (Nat.zero_le _)

theorem tame_packString (v w base : UInt32) : Tame 0 (packString v w base) :=
  (tame_load32 _ _).then fun _ => (tame_load32 _ _).then fun _ =>
    (tame_allocate _).bind fun _ _ => (tame_storeWord _ _).then fun _ =>
    (tame_storeWord _ _).then fun _ =>
    (tame_upTo fun _ _ => ((tame_read _ _).map _).then fun _ =>
      tame_write _ (Nat.zero_le _)).then fun _ => tame_write _ (Nat.zero_le _)

theorem tame_packInt (width : IntWidth) (v : Value) (w base : UInt32) :
    Tame 0 (packing (.int width) v w base) := by
  cases width with
  | w8 | w16 | w32 => exact tame_storeWord _ _
  | w64 => exact (tame_write _ (Nat.zero_le _)).then fun _ => tame_write _ (Nat.zero_le _)
  | w128 =>
    exact (tame_write _ (Nat.zero_le _)).then fun _ => tame_reverseBlock _ _ (Nat.zero_le _)
  | w256 => exact tame_reverseBlock _ _ (Nat.zero_le _)

mutual

theorem tame_packing : ∀ (form : Form) (v : Value) (w base : UInt32), Tame 0 (packing form v w base)
  | .bool, _, _, _ => tame_storeWord _ _
  | .int width, v, w, base => tame_packInt width v w base
  | .address, _, _, _ => tame_copy _ _ (Nat.zero_le _)
  | .enum _, _, _, _ => (tame_load32 _ _).then fun _ => tame_storeWord _ _
  | .string, _, _, _ => tame_packString _ _ _
  | .bytes _, _, _, _ => tame_packBytes _ _ _
  | .uid, _, _, _ => (tame_load32 _ _).then fun _ => (tame_load32 _ _).then fun _ =>
      tame_packBytes _ _ _
  | .id, _, _, _ => (tame_load32 _ _).then fun _ => tame_packBytes _ _ _
  | .vector e, _, _, _ => (tame_load32 _ _).then fun _ => (tame_allocate _).bind fun _ _ =>
      (tame_storeWord _ _).then fun _ => (tame_storeWord _ _).then fun _ =>
      tame_upTo fun _ _ => (tame_loadSlot _ _ _).then fun _ => tame_packing e _ _ _
  | .struct fields, v, w, base => by
    rw [packing]
    split
    · exact (tame_allocate _).bind fun _ _ => (tame_storeWord _ _).then fun _ =>
        tame_packingAll fields _ _ _ _ _
    · exact tame_packingAll fields _ _ _ _ _

theorem tame_packingAll : ∀ (fs : Forms) (rec w base place offset : UInt32),
    Tame 0 (packingAll fs rec w base place offset)
  | .nil, _, _, _, _, _ => .pure trivial
  | .cons _ form fs, _, _, _, _, _ => (tame_loadPart _ _ _ _).then fun _ =>
      (tame_packing form _ _ _).then fun _ => tame_packingAll fs _ _ _ _ _

end

theorem tame_packingTuple (fs : Forms) (rec : UInt32) : Tame 0 (packingTuple fs rec) :=
  (tame_allocate _).bind fun _ _ => (tame_packingAll fs _ _ _ _ _).then fun _ =>
    tame_state.then fun _ => (tame_write _ (Nat.zero_le _)).then fun _ => .pure trivial

/-! ## Heads inside the memory -/

/-- In a memory that cannot grow to 4 GiB, a run that starts with the first `a` bytes inside the memory
and comes to an end has the first `b` bytes inside it. -/
def Reaches {α : Type} (a b : Nat) (m : Compute α) : Prop :=
  ∀ ⦃vm vm' : Vm⦄ ⦃x : α⦄, vm.Sane → vm.memory.limit ≤ 65535 → a ≤ vm.memory.size →
    m.run vm = .ok (x, vm') → b ≤ vm'.memory.size

section

variable {α β : Type} {a b c : Nat} {m : Compute α} {next : α → Compute β}

theorem Reaches.bind {P : α → Prop} (hm : Reaches a b m) (ht : Tame 0 m P)
    (hnext : ∀ x, P x → Reaches b c (next x)) : Reaches a c (m >>= next) := by
  intro vm vm' y hs hlimit ha h
  obtain ⟨x, vm₁, hrun, h⟩ := run_bind_eq_ok.mp h
  obtain ⟨hx, hv⟩ := ht.spares hs (Nat.zero_le _) hrun
  exact hnext x hx hv.sane (hv.limit_eq ▸ hlimit) (hm hs hlimit ha hrun) h

/-- A first step that writes no head. -/
theorem Reaches.after {P : α → Prop} (ht : Tame 0 m P) (hnext : ∀ x, P x → Reaches a b (next x)) :
    Reaches a b (m >>= next) :=
  .bind (fun _ _ _ hs _ ha hrun => ha.trans (ht.spares hs (Nat.zero_le _) hrun).2.size_le) ht hnext

/-- Nothing that comes behind a head takes it out of the memory. -/
theorem Reaches.before (hm : Reaches a b m) (ht : Tame 0 m) (hnext : ∀ x, Tame 0 (next x)) :
    Reaches a b (m >>= next) :=
  hm.bind ht fun x _ _ _ _ hs _ ha hrun => ha.trans ((hnext x).spares hs (Nat.zero_le _) hrun).2.size_le

theorem Reaches.mono {a' b' : Nat} (h : Reaches a b m) (ha : a ≤ a') (hb : b' ≤ b) :
    Reaches a' b' m :=
  fun _ _ _ hs hlimit ha' hrun => hb.trans (h hs hlimit (ha.trans ha') hrun)

/-- A new block lies inside the memory. -/
theorem reaches_allocate {size : UInt32} {next : UInt32 → Compute β}
    (hnext : ∀ p : UInt32, Reaches (p.toNat + size.toNat) b (next p)) :
    Reaches a b (allocate size >>= next) := by
  intro vm vm' y hs hlimit _ h
  obtain ⟨p, vm₁, hrun, h⟩ := run_bind_eq_ok.mp h
  obtain ⟨rfl, hb⟩ := allocate_becomes hs hrun
  exact hnext _ hb.sane (hb.limit_eq ▸ hlimit) (hb.top_eq ▸ hb.sane.top_le) h

/-- Addresses inside the memory do not wrap. -/
theorem Reaches.of_lt (h : a < 4294967296 → Reaches a b m) : Reaches a b m :=
  fun _ _ _ hs hlimit ha => h (ha.trans_lt (hs.size_lt hlimit)) hs hlimit ha

theorem reaches_write {w : Nat} {bs : Bytes} (h : b ≤ w + bs.length) :
    Reaches a b (write w bs) := by
  intro vm vm' x hs _ _ hrun
  obtain ⟨hfit, hb⟩ := write_becomes hs hrun
  exact h.trans (hfit.trans hb.size_le)

theorem reaches_storeWord {w v : UInt32} : Reaches a (w.toNat + 32) (storeWord w v) := by
  rw [storeWord_eq]
  exact reaches_write (by rw [Bytes.length_ofNatBE])

theorem reaches_copy {w p n : UInt32} : Reaches a (w.toNat + n.toNat) (copy w p n) :=
  .after (tame_read _ _) fun _ hlen => reaches_write (by rw [hlen])

theorem reaches_reverseBlock {w p : UInt32} {n : Nat} :
    Reaches a (w.toNat + n) (reverseBlock n p w) :=
  .after (tame_read _ _) fun _ hlen => reaches_write (by rw [List.length_reverse, hlen])

theorem reaches_packBytes {n p w : UInt32} (hn : n.toNat ≤ 32) :
    Reaches a (w.toNat + 32) (packBytes n p w) := by
  have h32 : (32 : UInt32).toNat = 32 := rfl
  refine .bind reaches_copy (tame_copy _ _ (Nat.zero_le _)) fun _ _ => .of_lt fun hlt => ?_
  split
  · rename_i h
    rw [h, h32]
    exact fun _ _ _ _ _ ha hrun => by
      cases hrun
      exact ha
  · have hsub : (32 - n).toNat = 32 - n.toNat := by
      rw [UInt32.toNat_sub_of_le _ _ (UInt32.le_iff_toNat_le.mpr hn), h32]
    refine reaches_write ?_
    rw [List.length_replicate, hsub, toNat_add_of_lt hlt]
    omega

/-- A new block whose place is written as an offset. -/
theorem reaches_tail {w base size : UInt32} {next : UInt32 → Unit → Compute Unit}
    (hnext : ∀ tail u, Tame 0 (next tail u)) :
    Reaches a (w.toNat + 32) (allocate size >>= fun tail => packOffset tail base w >>= next tail) :=
  .after (tame_allocate _) fun _ _ => reaches_storeWord.before (tame_storeWord _ _) (hnext _)

end

theorem reaches_packInt (width : IntWidth) (v : Value) (w base : UInt32) {a : Nat} :
    Reaches a (w.toNat + 32) (packing (.int width) v w base) := by
  cases width with
  | w8 | w16 | w32 => exact reaches_storeWord
  | w64 => exact .after (tame_write _ (Nat.zero_le _)) fun _ _ => reaches_write le_rfl
  | w128 =>
    refine .bind (b := w.toNat + 16) (reaches_write le_rfl) (tame_write _ (Nat.zero_le _))
      fun _ _ => .of_lt fun hlt => ?_
    have hw : (w + 16).toNat = w.toNat + 16 := toNat_add_of_lt hlt
    have h := reaches_reverseBlock (a := w.toNat + 16) (w := w + 16) (p := v.word) (n := 16)
    rwa [hw] at h
  | w256 => exact reaches_reverseBlock

mutual

/-- The packer of a form ends with the head of the value inside the memory, if its place was. -/
theorem reaches_packing : ∀ (form : Form) (v : Value) (w base : UInt32),
    Reaches w.toNat (w.toNat + form.head) (packing form v w base)
  | .bool, _, _, _ => reaches_storeWord
  | .int width, v, w, base => reaches_packInt width v w base
  | .address, _, _, _ => reaches_copy
  | .enum _, _, _, _ => .after (tame_load32 _ _) fun _ _ => reaches_storeWord
  | .string, _, _, _ => .after (tame_load32 _ _) fun _ _ => .after (tame_load32 _ _) fun _ _ =>
      reaches_tail fun _ _ => (tame_storeWord _ _).then fun _ =>
        (tame_upTo fun _ _ => ((tame_read _ _).map _).then fun _ =>
          tame_write _ (Nat.zero_le _)).then fun _ => tame_write _ (Nat.zero_le _)
  | .bytes n, _, _, _ => reaches_packBytes (by
      have := n.isLt
      rw [toNat_ofNat_of_lt (by omega)]
      omega)
  | .uid, _, _, _ => .after (tame_load32 _ _) fun _ _ => .after (tame_load32 _ _) fun _ _ =>
      reaches_packBytes le_rfl
  | .id, _, _, _ => .after (tame_load32 _ _) fun _ _ => reaches_packBytes le_rfl
  | .vector e, _, _, _ => .after (tame_load32 _ _) fun _ _ =>
      reaches_tail fun _ _ => (tame_storeWord _ _).then fun _ =>
        tame_upTo fun _ _ => (tame_loadSlot _ _ _).then fun _ => tame_packing e _ _ _
  | .struct fields, v, w, base => by
    rw [packing]
    split
    · rename_i hdyn
      have hhead : Form.head (.struct fields) = 32 := if_pos (by rwa [Form.dynamic])
      rw [hhead]
      exact reaches_tail fun _ _ => tame_packingAll fields _ _ _ _ _
    · rename_i hdyn
      have hstatic : fields.dynamic = false := by simpa using hdyn
      have hhead : Form.head (.struct fields) = fields.heads := by
        rw [Form.head, if_neg (by rwa [Form.dynamic]), Form.size, fields.heads_eq_size hstatic]
      rw [hhead]
      exact reaches_packingAll fields v.word w base 0 0

theorem reaches_packingAll : ∀ (fs : Forms) (rec w base place offset : UInt32),
    Reaches (w.toNat + place.toNat) (w.toNat + place.toNat + fs.heads)
      (packingAll fs rec w base place offset)
  | .nil, _, _, _, _, _ => fun _ _ _ _ _ ha hrun => by
    cases hrun
    exact ha
  | .cons boxed form fs, rec, w, base, place, offset => .of_lt fun hlt => by
    have hw : (w + place).toNat = w.toNat + place.toNat := toNat_add_of_lt hlt
    refine .after (tame_loadPart _ _ _ _) fun x _ => ?_
    have hfirst := reaches_packing form x (w + place) base
    rw [hw] at hfirst
    refine hfirst.bind (tame_packing form _ _ _) fun _ _ => .of_lt fun hlt' => ?_
    have hplace : (place + form.headWord).toNat = place.toNat + form.head :=
      toNat_add_ofNat (by omega)
    have hrest := reaches_packingAll fs rec w base (place + form.headWord)
      (offset + UInt32.ofNat (form.place boxed))
    rw [hplace, ← Nat.add_assoc] at hrest
    rw [Forms.heads, ← Nat.add_assoc]
    exact hrest

end

/-- The heads of the elements of a vector. -/
theorem reaches_row (e : Form) (p start : UInt32) (n i : Nat) :
    Reaches (start.toNat + i * e.head) (start.toNat + (i + n) * e.head)
      (upTo (fun i => loadSlot e.wide (p + i * e.slotWord) 8 >>= fun x =>
        packing e x (start + i * e.headWord) start) n (UInt32.ofNat i)) := by
  induction n generalizing i with
  | zero =>
    intro vm vm' x _ _ ha hrun
    cases hrun
    exact ha
  | succ n ih =>
    refine .of_lt fun hlt => ?_
    have hdst : (start + UInt32.ofNat i * e.headWord).toNat = start.toNat + i * e.head :=
      toNat_index _ _ _ hlt
    have hbody : ∀ j, Tame 0 (loadSlot e.wide (p + j * e.slotWord) 8 >>= fun x =>
        packing e x (start + j * e.headWord) start) := fun j =>
      (tame_loadSlot _ _ _).then fun _ => tame_packing e _ _ _
    have hnext : UInt32.ofNat i + 1 = UInt32.ofNat (i + 1) := by simp
    rw [upTo, hnext, show i + (n + 1) = i + 1 + n by omega]
    refine .bind (.after (tame_loadSlot _ _ _) fun x _ => ?_) (hbody _) fun _ _ => ih (i + 1)
    have hfirst := reaches_packing e x (start + UInt32.ofNat i * e.headWord) start
    rwa [hdst, Nat.add_assoc, ← Nat.succ_mul] at hfirst

end MoveCodec.Codec
