import MoveCodec.Proofs.Storage.TypedGenerators

/-!
# Generators of tuples, errors and events make typed functions

Parameters come from the call data, from storage or from the host; each is kept in a local of its
type before it goes into the record.
-/
namespace MoveCodec.Codec

open Wasm Wasm.Emit Wasm.Code Assembly Machine Prelude Storage List

variable {H : Program → Prop} {c : Context}

/-! ## Packing -/

theorem typed_tupleParts (hH : ∀ p, H p → Allocates p) :
    ∀ ts : List (MoveType × UInt32), Makes typing H (tupleParts c ts) (PartsTyped packerType) := by
  intro ts
  induction ts generalizing H with
  | nil => exact .pure fun _ _ => .nil
  | cons t ts ih =>
    obtain ⟨t, offset⟩ := t
    refine .lift fun (type, boxed) _ => .bind (typed_pack hH type) fun func => ?_
    refine .lift fun head _ => .bind (ih fun p hp => hH p hp.1) fun parts => ?_
    exact .pure fun p hp => .cons hp.1.2 hp.2

theorem typed_packValues (hH : ∀ p, H p → Allocates p) (ts : List MoveType) :
    Makes typing H (packValues c ts) (IsTyped ⟨[.i32], [.i32]⟩) :=
  .lift fun (_, _) _ => typed_request rfl fun _ => .bind (typed_tupleParts hH _) fun _ =>
    typed_define_pure fun p hp => .intro (by simp [tupleCode, alloc, heapTop, hp, hH p hp.1])

/-! ## Unpacking -/

/-- The functions that a parameter comes from have the types that fit its own. -/
def Param.IsTyped (p : Program) (q : Param) : Prop :=
  match q.source with
  | .signer | .context => q.type.register = .i32
  | .object f => q.type.register = .i32 ∧ Codec.IsTyped ⟨[.i32], [.i32]⟩ f p
  | .value f _ => Codec.IsTyped (unpackerType q.type) f p

theorem typed_sourceOf (hH : ∀ p, H p → Allocates p) (t : MoveType) :
    Makes typing H (sourceOf c t) fun source p => ∀ boxed offset,
      Param.IsTyped p { source, type := t, boxed, offset } := by
  have hvalue : Makes typing H (do
      let func ← unpack c t
      return Source.value func (← lift (c.registry.headSize t)))
      fun source p => ∀ boxed offset, Param.IsTyped p { source, type := t, boxed, offset } :=
    .bind (typed_unpack hH t) fun _ => .lift fun _ _ => .pure fun p hp _ _ => hp.2
  unfold sourceOf
  split
  · rename_i ht
    exact .pure fun p _ _ _ => by simp [Param.IsTyped, ht, MoveType.register]
  split
  · rename_i htag
    have ht : t.register = .i32 := by
      cases t with
      | struct => rfl
      | _ => cases htag
    exact .pure fun p _ _ _ => ht
  · dsimp only
    split
    · split
      · exact .bind (typed_load hH _ _) fun _ => .pure fun p hp _ _ => ⟨rfl, hp.2⟩
      · exact hvalue
    · exact hvalue

theorem typed_callParams (hH : ∀ p, H p → Allocates p) (i : Nat) (ts : List (MoveType × UInt32)) :
    Makes typing H (callParams c i ts) fun params p => ∀ q ∈ params, q.IsTyped p := by
  induction ts generalizing H i with
  | nil => exact .pure fun _ _ => nofun
  | cons t ts ih =>
    obtain ⟨t, offset⟩ := t
    refine .lift fun (type, boxed) _ => .bind (.under (typed_sourceOf hH type)) fun source => ?_
    refine .bind (ih (fun p hp => hH p hp.1) (i + 1)) fun params => ?_
    exact .pure fun p hp => forall_mem_cons.2 ⟨hp.1.2 boxed offset, hp.2⟩

/-- The locals that the decoding of parameters keeps: call data and record. -/
def Decodes (C : Frame) : Prop := C.locals[0]? = some .i32 ∧ C.locals[1]? = some .i32

theorem typed_fetch (hH : ∀ p, H p → Allocates p) {q : Param} (hq : ∀ p, H p → q.IsTyped p)
    (v : UInt32) :
    Makes typing H (fetch c q v) (ValueTyped Decodes q.type.register v) := by
  obtain ⟨source, type, boxed, offset⟩ := q
  cases source with
  | signer =>
    refine .bind (typed_importHost c .txOrigin) fun origin => .pure fun p hp => ?_
    have ht : type.register = .i32 := hq p hp.1
    have horigin : IsTyped ⟨[.i32], []⟩ origin p := hp.2
    refine ⟨⟨_, rfl⟩, by simp [ht], by simp [alloc, horigin, hH p hp.1],
      fun C hC _ hl s s' => ?_⟩
    simp [-UInt32.toNat_add, alloc, hC, hl.head, ht, hl.second, horigin, hH p hp.1, @eq_comm _ s s']
  | context =>
    refine .pure fun p hp => ?_
    have ht : type.register = .i32 := hq p hp
    refine ⟨⟨_, rfl⟩, by simp [ht], by simp, fun C hC _ hl s s' => ?_⟩
    simp [hl.head, ht, @eq_comm _ s s']
  | object load =>
    refine .pure fun p hp => ?_
    obtain ⟨ht, hload⟩ : type.register = .i32 ∧ IsTyped ⟨[.i32], [.i32]⟩ load p := hq p hp
    refine ⟨⟨_, rfl⟩, by simp [ht], by simp [advance, reader, hload],
      fun C hC _ hl s s' => ?_⟩
    simp [advance, reader, hC, hl.head, ht, hload, @eq_comm _ s s']
  | value unpack head =>
    refine .pure fun p hp => ?_
    have hunpack : IsTyped (unpackerType type) unpack p := hq p hp
    refine ⟨⟨_, rfl⟩, by simp [type.register_isNumber], by simp [advance, reader, hunpack],
      fun C hC hargs hl s s' => ?_⟩
    simp [advance, reader, hC, hl.head, hargs.1, hunpack, unpackerType, @eq_comm _ s s']

theorem typed_fetchAll (hH : ∀ p, H p → Allocates p) {params : List Param}
    (hparams : ∀ p, H p → ∀ q ∈ params, q.IsTyped p) (v : UInt32) :
    Makes typing H (fetchAll c v params) (PieceTyped Decodes v) := by
  induction params generalizing H v with
  | nil => exact .pure fun _ _ => .nil
  | cons q params ih =>
    have hq : ∀ p, H p → q.IsTyped p := fun p hp => hparams p hp q mem_cons_self
    have hrest : ∀ {H' : Program → Prop} (after : UInt32), (∀ p, H' p → H p) →
        Makes typing H' (fetchAll c after params) (PieceTyped Decodes after) := fun after hH' =>
      ih (fun p hp => hH p (hH' p hp))
        (fun p hp q hq => hparams p (hH' p hp) q (mem_cons_of_mem _ hq)) after
    refine .bind (typed_fetch hH hq v) fun x => ?_
    obtain ⟨locals, code⟩ := x
    dsimp only
    split
    · refine .lift fun size _ => .bind (hrest _ fun p hp => hp.1) fun y => .pure fun p hp => ?_
      obtain ⟨⟨hp, ⟨ls, hls⟩, hx⟩, hy⟩ := hp
      -- The cell for the reference is the local after those of the value.
      refine PieceTyped.append (x := (locals ++ [.i32], code ++ _))
        ⟨forall_mem_append.2 ⟨hx.numbers, by simp⟩, ?_, ?_⟩ ?_
      · simp [alloc, hx.bounded, hH p hp]
      · intro C hC hargs hl s s'
        have hvalue := (hls ▸ hl.left : C.HasLocals v (q.type.register :: ls)).head
        have hcell := hl.right.head
        simp [-UInt32.toNat_add, alloc, hx.typed C hC hargs hl.left, hC, hvalue, hcell, hargs.2,
          hH p hp, @eq_comm _ s s']
      · rw [length_append, UInt32.ofNat_add, ← UInt32.add_assoc]
        exact hy
    · refine .bind (hrest _ fun p hp => hp.1) fun y => .pure fun p hp => ?_
      obtain ⟨⟨-, ⟨ls, hls⟩, hx⟩, hy⟩ := hp
      refine PieceTyped.append (x := (locals, code ++ _)) ⟨hx.numbers, by simp [hx.bounded], ?_⟩ hy
      intro C hC hargs hl s s'
      have hvalue := (hls ▸ hl : C.HasLocals v (q.type.register :: ls)).head
      simp [hx.typed C hC hargs hl, hC, hvalue, hargs.2, @eq_comm _ s s']

theorem typed_unpackValues (hH : ∀ p, H p → Allocates p) (ts : List MoveType) :
    Makes typing H (unpackValues c ts) (IsTyped ⟨[.i32], [.i32]⟩) := by
  refine .lift fun (offsets, size) _ => typed_request rfl fun _ => ?_
  refine .bind (typed_callParams hH 0 _) fun params => typed_define ?_
  refine .bind (typed_fetchAll (fun p hp => hH p hp.1) (fun p hp => hp.2) 2) fun x => ?_
  refine .pure fun p hp => ⟨fun hsize => ?_, by simp [alloc, hp.2.bounded, hH p hp.1.1]⟩
  have hl : (p.surroundings.frame ⟨[.i32], [.i32]⟩ (.i32 :: x.1)).HasLocals 2 x.1 :=
    Surroundings.hasLocals_frame [.i32] hsize
  refine ⟨forall_mem_cons.2 ⟨.inl rfl, hp.2.numbers⟩, ?_⟩
  simp [reader, alloc, hp.2.typed _ (by simp) (by simp [Decodes]) hl, hH p hp.1.1]

/-! ## Errors and events -/

section

variable (hH : ∀ p, H p → Allocates p) (d : StructDef)

include hH

theorem typed_revert : Makes typing H (revert c d) (IsTyped ⟨[.i32], [.i32]⟩) :=
  .lift fun _ _ => .lift fun _ _ => .lift fun _ _ => typed_request rfl fun _ =>
    .bind (.under (typed_tupleParts hH _)) fun _ => typed_define_pure fun p hp =>
      .intro (by simp [tupleCode, alloc, heapTop, hp, hH p hp.1])

theorem typed_raise : Makes typing H (raise c d) (IsTyped ⟨[.i32], [.i32]⟩) :=
  .bind (typed_revert hH d) fun _ => .bind (typed_importHost c .writeResult) fun _ =>
    typed_request rfl fun _ => typed_define_pure fun _ hp => .intro (by
      simp [handOver, HostFunc.arity, hp])

theorem typed_emit : Makes typing H (emit c d) (IsTyped ⟨[.i32], []⟩) := by
  refine .lift fun _ _ => .lift fun fields _ => ?_
  split
  · exact fun _ ha _ => ⟨ha, .refl _⟩
  · refine .lift fun _ _ => .lift fun _ _ => .bind (typed_importHost c .emitLog) fun log => ?_
    refine typed_request rfl fun _ => .bind (.under (typed_tupleParts (fun p hp => hH p hp.1) _))
      fun topics => ?_
    refine .bind (.under (typed_tupleParts (fun p hp => hH p hp.1.1) _)) fun data => ?_
    refine typed_define_pure fun p hp => .intro ?_
    simp [tupleCode, alloc, heapTop, HostFunc.arity, hp, hH p hp.1.1.1]

end

end MoveCodec.Codec
