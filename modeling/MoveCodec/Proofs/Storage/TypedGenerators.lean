import MoveCodec.Proofs.Codec.TypedGenerators

/-!
# Storage generators make typed functions

The walks over the fields of an object number their locals as they go. A piece of such a body is
typed in every frame that has the locals of the piece from its first number on.
-/
namespace MoveCodec.Storage

open Wasm Wasm.Emit Wasm.Code Assembly Machine Prelude Codec List

variable {needs : Frame → Prop} {offset v : UInt32} {p : Program} {t : MoveType} {x y : Piece}

variable {H : Program → Prop}

/-- In frames with what it needs and with its own locals from `v` on, the piece leaves the stack as
it was. -/
structure PieceTyped (needs : Frame → Prop) (v : UInt32) (x : Piece) (p : Program) : Prop where
  numbers : ∀ l ∈ x.1, l.IsNumber
  bounded : Bounded p x.2
  typed : ∀ C : Frame, C.toSurroundings = p.surroundings → needs C → C.HasLocals v x.1 →
    ∀ s s', Typed C x.2 s s' ↔ s' = s

theorem PieceTyped.nil :
    PieceTyped needs v ([], []) p :=
  ⟨nofun, trivial, fun _ _ _ _ s s' => by simp⟩

/-- The locals of the second piece come after those of the first. -/
theorem PieceTyped.append
    (hx : PieceTyped needs v x p) (hy : PieceTyped needs (v + UInt32.ofNat x.1.length) y p) :
    PieceTyped needs v (x.1 ++ y.1, x.2 ++ y.2) p where
  numbers := forall_mem_append.2 ⟨hx.numbers, hy.numbers⟩
  bounded := bounded_append.2 ⟨hx.bounded, hy.bounded⟩
  typed C hC hneeds hl s s' := by
    simp [hx.typed C hC hneeds hl.left, hy.typed C hC hneeds hl.right]

/-! ## Slots -/

theorem typed_addWide : Makes typing H addWide (IsTyped ⟨[.i32, .i32, .i32], []⟩) := by
  refine typed_request rfl fun _ => typed_define_pure fun p _ =>
    .intro ⟨by simp, (typed_flatMap (fun off s s' => ?_) _).2 rfl, ?_⟩
  · simp [@eq_comm _ s s']
  · exact bounded_flatMap (fun _ => by simp) _

theorem typed_stepSlot : Makes typing H stepSlot (IsTyped ⟨[.i32], []⟩) :=
  .bind typed_reverseBlock32 fun _ => .bind typed_addWide fun _ => typed_request rfl fun _ =>
    typed_define_pure fun _ hp => .intro (by simp [nextSlotBody, hp])

theorem typed_sameWord : Makes typing H sameWord (IsTyped ⟨[.i32, .i32], [.i32]⟩) :=
  typed_request rfl fun _ => typed_define_pure fun _ _ => .intro (by simp [sameWordBody])

theorem typed_deriveSlot (c : Context) :
    Makes typing H (deriveSlot c) (IsTyped ⟨[.i32, .i32], []⟩) :=
  .bind (typed_importHost c .keccak) fun _ => typed_request rfl fun _ =>
    typed_define_pure fun _ hp => .intro (by simp [deriveSlotBody, copyWord, HostFunc.arity, hp])

theorem typed_locate (c : Context) : Makes typing H (locate c) (IsTyped ⟨[.i32], []⟩) :=
  .bind (typed_deriveSlot c) fun _ => .bind typed_sameWord fun _ =>
    .bind (typed_importHost c .txOrigin) fun _ => .bind (typed_importHost c .storageLoad) fun _ =>
      typed_request rfl fun _ => typed_define_pure fun _ hp =>
        .intro (by simp [locateBody, probe, copyWord, HostFunc.arity, hp])

/-! ## Fields -/

/-- The value is in one local, the address of the word in another. -/
def HoldsWord (t : ValType) (v w : UInt32) (C : Frame) : Prop :=
  C.locals[v.toNat]? = some t ∧ C.locals[w.toNat]? = some .i32

theorem typed_wordOfValue (r : Registry) (t : MoveType) (v w next : UInt32) :
    Makes typing H (wordOfValue r t v w next)
      (PieceTyped (HoldsWord t.register v w) next) := by
  have hsmall : ∀ {t : MoveType}, t.register = .i32 → Makes typing H
      (do return ([], storeWord (← swap32) w 0 v))
      (PieceTyped (HoldsWord t.register v w) next) := fun ht =>
    .bind typed_swap32 fun _ => .pure fun p hp =>
      ⟨by simp, by simp [storeWord, hp], fun C hC hw _ s s' => by
        simp [storeWord, hC, ht ▸ hw.1, hw.2, hp, @eq_comm _ s s']⟩
  have hbytes : ∀ (tag : NativeTag), Makes typing H
      (pure ([.i32], [push v] ++ openIdentifier tag ++ [pop next] ++ copyBlock w 0 next 0 32))
      (PieceTyped (HoldsWord .i32 v w) next) := fun tag =>
    .pure fun p _ => ⟨by simp, by simp [copyBlock], fun C hC hw hl s s' => by
      simp [copyBlock, hC, hw.1, hw.2, hl.head]⟩
  unfold wordOfValue
  split
  · exact hsmall rfl
  · exact hsmall rfl
  · exact hsmall rfl
  · exact hsmall rfl
  · refine .bind typed_swap32 fun _ => .pure fun p hp =>
      ⟨by simp, by simp [writeTag, storeWord, hp], fun C hC hw hl s s' => ?_⟩
    simp [writeTag, storeWord, hC, hw.1, hw.2, hl.head, hp, MoveType.register, @eq_comm _ s s']
  · refine .bind typed_swap64 fun _ => .pure fun p hp =>
      ⟨by simp, by simp [writeU64, hp], fun C hC hw _ s s' => ?_⟩
    simp [writeU64, hC, hw.1, hw.2, hp, MoveType.register, @eq_comm _ s s']
  · refine .bind typed_reverseBlock16 fun _ => .pure fun p hp =>
      ⟨by simp, by simp [writeU128, hp], fun C hC hw _ s s' => ?_⟩
    simp [writeU128, hC, hw.1, hw.2, hp, MoveType.register, @eq_comm _ s s']
  · refine .bind typed_reverseBlock32 fun _ => .pure fun p hp =>
      ⟨by simp, by simp [writeU256, hp], fun C hC hw _ s s' => ?_⟩
    simp [writeU256, hC, hw.1, hw.2, hp, MoveType.register, @eq_comm _ s s']
  · refine .pure fun p hp => ⟨by simp, by simp [copyBlock], fun C hC hw _ s s' => ?_⟩
    simp [copyBlock, hC, hw.1, hw.2, MoveType.register, @eq_comm _ s s']
  · split
    · exact hbytes _
    · exact hbytes _
    · exact hbytes _
    · exact .throw _
  · exact .throw _

/-- A piece that gets a value of a type into the local `v`. -/
def ValueTyped (needs : Frame → Prop) (t : ValType) (v : UInt32) (x : Piece) (p : Program) : Prop :=
  (∃ ls, x.1 = t :: ls) ∧ PieceTyped needs v x p

theorem typed_valueOfWord (hH : ∀ p, H p → Allocates p) (r : Registry) (t : MoveType)
    (w v : UInt32) :
    Makes typing H (valueOfWord r t w v)
      (ValueTyped (fun C => C.locals[w.toNat]? = some .i32) t.register v) := by
  have hsmall : ∀ {t : MoveType}, t.register = .i32 → Makes typing H
      (do return ([.i32], [push w, Emit.load 28, call (← swap32), pop v]))
      (ValueTyped (fun C => C.locals[w.toNat]? = some .i32) t.register v) := fun ht =>
    .bind typed_swap32 fun _ => .pure fun p hp =>
      ⟨⟨[], by rw [ht]⟩, by simp, by simp [hp], fun C hC hw hl s s' => by
        simp [hC, hw, hl.head, hp, @eq_comm _ s s']⟩
  unfold valueOfWord
  split
  · exact hsmall rfl
  · exact hsmall rfl
  · exact hsmall rfl
  · exact hsmall rfl
  · refine .bind typed_swap32 fun _ => .pure fun p hp =>
      ⟨⟨_, rfl⟩, by simp, by simp [alloc, hp.2, hH p hp.1], fun C hC hw hl s s' => ?_⟩
    simp [-UInt32.toNat_add, alloc, hC, hw, hl.head, hl.second, hp.2, hH p hp.1, @eq_comm _ s s']
  · refine .bind typed_swap64 fun _ => .pure fun p hp =>
      ⟨⟨_, rfl⟩, by simp, by simp [hp], fun C hC hw hl s s' => ?_⟩
    simp [hC, hw, hl.head, hp.2, @eq_comm _ s s']
  · refine .bind typed_reverseBlock16 fun _ => .pure fun p hp =>
      ⟨⟨_, rfl⟩, by simp, by simp [alloc, hp.2, hH p hp.1], fun C hC hw hl s s' => ?_⟩
    simp [-UInt32.toNat_add, alloc, hC, hw, hl.head, hl.second, hp.2, hH p hp.1, @eq_comm _ s s']
  · refine .bind typed_reverseBlock32 fun _ => .pure fun p hp =>
      ⟨⟨_, rfl⟩, by simp, by simp [alloc, hp.2, hH p hp.1], fun C hC hw hl s s' => ?_⟩
    simp [-UInt32.toNat_add, alloc, hC, hw, hl.head, hl.second, hp.2, hH p hp.1, @eq_comm _ s s']
  · refine .pure fun p hp => ⟨⟨_, rfl⟩, by simp, by simp [alloc, copyBlock, hH p hp], ?_⟩
    intro C hC hw hl s s'
    simp [-UInt32.toNat_add, alloc, copyBlock, hC, hw, hl.head, hl.second, hH p hp, @eq_comm _ s s']
  · dsimp only
    split
    · refine .pure fun p hp => ⟨⟨_, rfl⟩, by simp, by simp [alloc, copyBlock, hH p hp], ?_⟩
      intro C hC hw hl s s'
      simp [-UInt32.toNat_add, alloc, copyBlock, hC, hw, hl.head, hl.second, hH p hp, @eq_comm _ s s']
    · refine .pure fun p hp => ⟨⟨_, rfl⟩, by simp, by simp [box, alloc, copyBlock, hH p hp], ?_⟩
      intro C hC hw hl s s'
      have h2 : C.locals[(v + 2).toNat]? = some .i32 := hl.get (i := 2) rfl
      simp [-UInt32.toNat_add, box, alloc, copyBlock, hC, hw, hl.head, hl.second, h2, hH p hp, @eq_comm _ s s']
    · refine .pure fun p hp => ⟨⟨_, rfl⟩, by simp, by simp [box, alloc, copyBlock, hH p hp], ?_⟩
      intro C hC hw hl s s'
      have h2 : C.locals[(v + 2).toNat]? = some .i32 := hl.get (i := 2) rfl
      have h3 : C.locals[(v + 3).toNat]? = some .i32 := hl.get (i := 3) rfl
      simp [-UInt32.toNat_add, box, alloc, copyBlock, hC, hw, hl.head, hl.second, h2, h3, hH p hp, @eq_comm _ s s']
    · exact .throw _
  · exact .throw _

/-- The locals that walks over fields keep: record, slot and word. -/
def Walks (C : Frame) : Prop :=
  C.locals[0]? = some .i32 ∧ C.locals[1]? = some .i32 ∧ C.locals[2]? = some .i32

/-- The walk has the value of a field in the local `v`. -/
def WalksWith (t : ValType) (v : UInt32) (C : Frame) : Prop :=
  Walks C ∧ C.locals[v.toNat]? = some t

/-- Writes one field and then the others. -/
theorem PieceTyped.save
    (hx : PieceTyped (WalksWith t.register v) (v + 1) x p)
    (hy : PieceTyped Walks (v + 1 + UInt32.ofNat x.1.length) y p) :
    PieceTyped Walks v
      (t.register :: x.1 ++ y.1, [push 0, loadValue t offset, pop v] ++ x.2 ++ y.2) p := by
  have hfield : PieceTyped Walks v
      (t.register :: x.1, [push 0, loadValue t offset, pop v] ++ x.2) p := by
    refine ⟨forall_mem_cons.2 ⟨t.register_isNumber, hx.numbers⟩, by simp [hx.bounded], ?_⟩
    intro C hC hwalks hl s s'
    have hown : C.HasLocals (v + 1) x.1 :=
      Frame.HasLocals.right (show C.HasLocals v ([t.register] ++ x.1) from hl)
    simp [hC, hwalks.1, hl.head, hx.typed C hC ⟨hwalks, hl.head⟩ hown, @eq_comm _ s s']
  refine hfield.append ?_
  rw [length_cons, UInt32.ofNat_add, UInt32.add_comm (UInt32.ofNat _), ← UInt32.add_assoc]
  exact hy

mutual

theorem typed_fieldWriter {c : Context} {H : Program → Prop} :
    ∀ s : Shape, Makes typing H (fieldWriter c s) (IsTyped ⟨[.i32, .i32], []⟩)
  | .struct d args fields => by
    rw [fieldWriter]
    refine .lift fun (offsets, _) _ => .bind typed_stepSlot fun next => ?_
    refine .bind (typed_importHost c .storageCache) fun cache => typed_request rfl fun _ => ?_
    refine typed_define (.bind (typed_saveEach next cache 3 fields offsets (fun p hp => hp.1.2)
      (fun p hp => hp.2)) fun x => .pure fun p hp => ⟨fun hsize => ?_, by simp [hp.2.bounded]⟩)
    have hl : (p.surroundings.frame ⟨[.i32, .i32], []⟩ (.i32 :: x.1)).HasLocals 3 x.1 :=
      Surroundings.hasLocals_frame [.i32] hsize
    refine ⟨forall_mem_cons.2 ⟨.inl rfl, hp.2.numbers⟩, ?_⟩
    simp [hp.2.typed _ (by simp) (by simp [Walks]) hl]
  | .bool | .int _ | .address | .signer | .vector _ | .enum _ _ | .ref _ _ | .param _
  | .tagged _ _ | .missing _ _ | .broken _ _ _ | .endless _ _ => by
    unfold fieldWriter
    exact .throw _

theorem typed_saveEach {c : Context} {H : Program → Prop} (next cache : FuncId) (v : UInt32) :
    ∀ (fields : FieldShapes) (offsets : List UInt32),
      (∀ p, H p → IsTyped ⟨[.i32], []⟩ next p) → (∀ p, H p → IsTyped ⟨[.i32, .i32], []⟩ cache p) →
        Makes typing H (saveEach c next cache v fields offsets) (PieceTyped Walks v)
  | .nil, _, _, _ | .cons _ _ _, [], _, _ => by
    unfold saveEach
    exact .pure fun _ _ => .nil
  | .cons name s rest, offset :: offsets, hnext, hcache => by
    have hrest : ∀ {H' : Program → Prop} (after : UInt32), (∀ p, H' p → H p) →
        Makes typing H' (saveEach c next cache after rest offsets) (PieceTyped Walks after) :=
      fun after hH' => typed_saveEach next cache after rest offsets
        (fun p hp => hnext p (hH' p hp)) fun p hp => hcache p (hH' p hp)
    unfold saveEach
    dsimp only
    split
    · rename_i d args fields
      refine .bind (.under (typed_fieldWriter _)) fun inner => .bind (Q := fun x p =>
        PieceTyped (WalksWith (MoveType.struct d.id args).register v) (v + 1) x p)
          (.pure fun p hp => ⟨nofun, by simp [hp.2], ?_⟩) fun x =>
            .bind (hrest _ fun p hp => hp.1.1) fun y => .pure fun p hp => hp.1.2.save hp.2
      rintro C hC ⟨hwalks, hv⟩ _ k k'
      simp [hC, hwalks.2.1, hv, hp.2, MoveType.register, @eq_comm _ k k']
    · refine .bind (.under (typed_wordOfValue _ _ _ _ _)) fun z => .bind (Q := fun x p =>
        PieceTyped (WalksWith s.type.register v) (v + 1) x p)
          (.pure fun p hp => ⟨hp.2.numbers,
            by simp [hp.2.bounded, hnext p hp.1, hcache p hp.1], ?_⟩) fun x =>
            .bind (hrest _ fun p hp => hp.1.1) fun y => .pure fun p hp => hp.1.2.save hp.2
      rintro C hC ⟨hwalks, hv⟩ hl k k'
      have hz := hp.2.typed C hC ⟨hv, hwalks.2.2⟩ hl
      simp [hz, hC, hwalks.2.1, hwalks.2.2, hnext p hp.1, hcache p hp.1, @eq_comm _ k k']

end

theorem PieceTyped.read
    (hx : ValueTyped Walks t.register v x p)
    (hy : PieceTyped Walks (v + UInt32.ofNat x.1.length) y p) :
    PieceTyped Walks v
      (x.1 ++ y.1, x.2 ++ [push 2, push v, storeValue t offset] ++ y.2) p := by
  obtain ⟨⟨ls, hls⟩, hx⟩ := hx
  refine PieceTyped.append (x := (x.1, x.2 ++ [push 2, push v, storeValue t offset]))
    ⟨hx.numbers, by simp [hx.bounded], fun C hC hwalks hl s s' => ?_⟩ hy
  have hv : C.locals[v.toNat]? = some t.register :=
    (hls ▸ hl : C.HasLocals v (t.register :: ls)).head
  simp [hx.typed C hC hwalks hl, hC, hwalks.2.2, hv, @eq_comm _ s s']

mutual

theorem typed_fieldReader {c : Context} {H : Program → Prop} (hH : ∀ p, H p → Allocates p) :
    ∀ s : Shape, Makes typing H (fieldReader c s) (IsTyped ⟨[.i32], [.i32]⟩)
  | .struct d args fields => by
    rw [fieldReader]
    refine .lift fun (offsets, size) _ => .bind typed_stepSlot fun next => ?_
    refine .bind (typed_importHost c .storageLoad) fun load => typed_request rfl fun _ => ?_
    refine typed_define (.bind (typed_readEach (fun p hp => hH p hp.1.1) next load 3 fields offsets
      (fun p hp => hp.1.2) (fun p hp => hp.2)) fun x =>
        .pure fun p hp => ⟨fun hsize => ?_, by simp [alloc, hp.2.bounded, hH p hp.1.1.1]⟩)
    have hl : (p.surroundings.frame ⟨[.i32], [.i32]⟩ (.i32 :: .i32 :: x.1)).HasLocals 3 x.1 :=
      Surroundings.hasLocals_frame [.i32, .i32] hsize
    refine ⟨by simpa using hp.2.numbers, ?_⟩
    simp [alloc, hp.2.typed _ (by simp) (by simp [Walks]) hl, hH p hp.1.1.1]
  | .bool | .int _ | .address | .signer | .vector _ | .enum _ _ | .ref _ _ | .param _
  | .tagged _ _ | .missing _ _ | .broken _ _ _ | .endless _ _ => by
    unfold fieldReader
    exact .throw _

theorem typed_readEach {c : Context} {H : Program → Prop} (hH : ∀ p, H p → Allocates p)
    (next load : FuncId) (v : UInt32) : ∀ (fields : FieldShapes) (offsets : List UInt32),
      (∀ p, H p → IsTyped ⟨[.i32], []⟩ next p) → (∀ p, H p → IsTyped ⟨[.i32, .i32], []⟩ load p) →
        Makes typing H (readEach c next load v fields offsets) (PieceTyped Walks v)
  | .nil, _, _, _ | .cons _ _ _, [], _, _ => by
    unfold readEach
    exact .pure fun _ _ => .nil
  | .cons name s rest, offset :: offsets, hnext, hload => by
    have hrest : ∀ {H' : Program → Prop} (after : UInt32), (∀ p, H' p → H p) →
        Makes typing H' (readEach c next load after rest offsets) (PieceTyped Walks after) :=
      fun after hH' => typed_readEach (fun p hp => hH p (hH' p hp)) next load after rest offsets
        (fun p hp => hnext p (hH' p hp)) fun p hp => hload p (hH' p hp)
    unfold readEach
    dsimp only
    split
    · rename_i d args fields
      refine .bind (.under (typed_fieldReader hH _)) fun inner => .bind (Q := fun x p =>
        ValueTyped Walks (MoveType.struct d.id args).register v x p)
          (.pure fun p hp => ⟨⟨[], rfl⟩, by simp, by simp [hp.2], ?_⟩) fun x =>
            .bind (hrest _ fun p hp => hp.1.1) fun y =>
              .pure fun p hp => PieceTyped.read hp.1.2 hp.2
      intro C hC hwalks hl k k'
      simp [hC, hwalks.1, hl.head, hp.2, @eq_comm _ k k']
    · refine .bind (.under (typed_valueOfWord hH _ _ _ _)) fun z => .bind (Q := fun x p =>
        ValueTyped Walks s.type.register v x p)
          (.pure fun p hp => ⟨hp.2.1, hp.2.2.numbers,
            by simp [hp.2.2.bounded, hnext p hp.1, hload p hp.1], ?_⟩) fun x =>
            .bind (hrest _ fun p hp => hp.1.1) fun y =>
              .pure fun p hp => PieceTyped.read hp.1.2 hp.2
      intro C hC hwalks hl k k'
      have hz := hp.2.2.typed C hC hwalks.2.1 hl
      simp [hz, hC, hwalks.1, hwalks.2.1, hnext p hp.1, hload p hp.1, @eq_comm _ k k']

end

/-! ## Objects -/

section

variable {c : Context} (hH : ∀ p, H p → Allocates p) (id : DefId) (args : List MoveType)

/-- What an object is generated from does not change the assembly. -/
theorem typed_stored {β : Type} {k : Stored → Generate β} {R : β → Program → Prop}
    (h : ∀ o, Makes typing H (k o) R) : Makes typing H (stored c id args >>= k) R := by
  refine .bind (Q := fun _ _ => True) ?_ fun o => (h o).mono (fun _ hp => hp.1) fun _ _ _ hx => hx
  exact .lift fun _ _ => .lift fun _ _ => .lift fun _ _ => .pure fun _ _ => trivial

include hH

theorem typed_save : Makes typing H (save c id args) (IsTyped ⟨[.i32, .i32], []⟩) :=
  typed_stored id args fun o => .bind (typed_deriveSlot c) fun _ =>
    .bind (typed_fieldWriter o.shape) fun _ => .bind (typed_importHost c .storageFlush) fun _ =>
      typed_request rfl fun _ => typed_define_pure fun p hp =>
        .intro (by simp [saveBody, copySlot, pushIdentifier, alloc, HostFunc.arity, hp, hH p hp.1.1.1])

theorem typed_read : Makes typing H (read c id args) (IsTyped ⟨[.i32, .i32], [.i32]⟩) :=
  typed_stored id args fun o => .bind (typed_deriveSlot c) fun _ => .bind typed_sameWord fun _ =>
    .bind (typed_fieldReader (fun p hp => hH p hp.1.1) o.shape) fun _ =>
      typed_request rfl fun _ => typed_define_pure fun p hp =>
        .intro (by simp [readBody, copySlot, pushIdentifier, alloc, hp, hH p hp.1.1.1])

theorem typed_load : Makes typing H (load c id args) (IsTyped ⟨[.i32], [.i32]⟩) :=
  typed_stored id args fun o => .bind (typed_locate c) fun _ =>
    .bind (typed_fieldReader (fun p hp => hH p hp.1) o.shape) fun _ =>
      typed_request rfl fun _ => typed_define_pure fun p hp =>
        .intro (by simp [loadBody, copySlot, alloc, hp, hH p hp.1.1])

theorem typed_delete : Makes typing H (delete c id args) (IsTyped ⟨[.i32, .i32], []⟩) := by
  refine typed_stored id args fun o => .bind (typed_deriveSlot c) fun _ =>
    .bind typed_stepSlot fun next => .bind (typed_importHost c .storageCache) fun cache =>
      .bind (typed_importHost c .storageFlush) fun _ =>
        typed_request rfl fun _ => typed_define_pure fun p hp => .intro ?_
  set clear : Code := [push 2, const zeroWord, call cache, push 2, call next] with hcode
  have hclear : ∀ words s s', Typed (p.surroundings.frame ⟨[.i32, .i32], []⟩ [.i32])
      ((List.range words).flatMap fun _ => clear) s s' ↔ s' = s := fun words s s' =>
    typed_flatMap (fun _ s s' => by simp [hcode, HostFunc.arity, hp, @eq_comm _ s s']) _
  have hbounded : ∀ words, Bounded p ((List.range words).flatMap fun _ => clear) := fun _ =>
    bounded_flatMap (fun _ => by simp [hcode, hp]) _
  simp [deleteBody, copySlot, pushIdentifier, alloc, HostFunc.arity, hp, hH p hp.1.1.1.1, ← hcode,
    hclear, hbounded]

end

end MoveCodec.Storage
