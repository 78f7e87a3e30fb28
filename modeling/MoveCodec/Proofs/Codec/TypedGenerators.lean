import MoveCodec.Proofs.Assembly.Generation
import MoveCodec.Proofs.Codec.TypedCode
import MoveCodec.Proofs.Types.Registry

/-!
# Generators make typed functions

Each function that is requested has the type that `requestType?` gives for the request and stops,
and every function that is done is typed.
-/
namespace MoveCodec

variable {c : Context} {gen : Bool → String → Generate FuncId} {name : String}
  {params results : List ValType} {r : Registry} {s : Shape}

namespace Assembly

open Wasm Machine

/-- A function that can be used in a program: an import that the host has, or a definition that is
typed. Code whose locals cannot be numbered is of no use. -/
def Entry.WellTyped (p : Program) : Entry → Prop
  | .imported _ name t =>
      ∃ f, HostFunc.ofName? name = some f ∧ t = ⟨List.replicate f.arity .i32, []⟩
  | .defined _ t locals body _ =>
      ∃ code, Code.nest? body = some code ∧ Codec.BodyTyped p t locals code

end Assembly

namespace Codec

open Wasm Wasm.Emit Wasm.Code Assembly Machine Prelude List

def requestType? (kind : String) (args : List MoveType) : Option FuncType :=
  match kind with
  | "pack" => args.head?.map packerType
  | "unpack" => args.head?.map unpackerType
  | "swap_i32" | "pack_values" | "unpack_values" | "revert" | "raise" | "storage_load"
  | "storage_read_fields" => some ⟨[.i32], [.i32]⟩
  | "swap_i64" => some ⟨[.i64], [.i64]⟩
  | "emit" | "storage_next_slot" | "locate_object" => some ⟨[.i32], []⟩
  | "swap_bytes_16" | "swap_bytes_32" | "assert_zero" | "write_object_slot"
  | "storage_save_fields" | "storage_save" | "storage_delete" => some ⟨[.i32, .i32], []⟩
  | "equal_bytes32" | "storage_read" => some ⟨[.i32, .i32], [.i32]⟩
  | "add_u256" => some ⟨[.i32, .i32, .i32], []⟩
  | _ => none

def typing : Spec where
  table kind args f p := ∀ t, requestType? kind args = some t → IsTyped t f p
  each e p := e.WellTyped p

/-- The type of the allocator. -/
abbrev Allocates (p : Program) : Prop := IsTyped ⟨[.i32], [.i32]⟩ allocate p

variable {H : Program → Prop}

/-! ## Rules -/

theorem typed_request {kind : String} {args : List MoveType} {gen : String → Generate FuncId}
    {t : FuncType} (hkind : requestType? kind args = some t)
    (h : ∀ name, Makes typing H (gen name) (IsTyped t)) :
    Makes typing H (request kind args gen) (IsTyped t) := by
  have hgen : ∀ name, Makes typing H (gen name) (typing.table kind args) := fun name =>
    (h name).mono (fun _ hp => hp) fun f p _ hf t' ht' => by
      rw [hkind] at ht'
      cases ht'
      exact hf
  exact (Makes.request hgen).mono (fun _ hp => hp) fun f p _ hf => hf t hkind

theorem typed_define
    {body : Generate (List ValType × Code)}
    (h : Makes typing H body fun x p => BodyTyped p ⟨params, results⟩ x.1 x.2) :
    Makes typing H (define name params results body) (IsTyped ⟨params, results⟩) := by
  refine .define_each (h.mono (fun _ hp => hp) fun x p _ hx _ => ⟨⟨x.2, ?_, hx⟩, fun f hf => ?_⟩)
  · exact nest?_flatten x.2
  · exact ⟨by simp [Program.typeOf?, hf, Callee.type], funcStops_code hf hx.bounded⟩

/-- A definition whose body is at hand. -/
theorem typed_define_pure {locals : List ValType} {code : Code}
    (h : ∀ p, H p → BodyTyped p ⟨params, results⟩ locals code) :
    Makes typing H (define name params results (pure (locals, code)))
      (IsTyped ⟨params, results⟩) :=
  typed_define (.pure fun p hp => h p hp)

theorem typed_importHost (c : Context) (f : HostFunc) :
    Makes typing H (importHost c f) (IsTyped ⟨List.replicate f.arity .i32, []⟩) := by
  refine (Makes.import_each c f fun home p => ?_).mono (fun _ hp => hp) fun id p _ hid => ?_
  · exact ⟨f, by cases f <;> decide, rfl⟩
  · exact ⟨by simp [Program.typeOf?, hid, Callee.type], funcStops_host hid⟩

/-! ## Routines -/

theorem typed_swap32 : Makes typing H swap32 (IsTyped ⟨[.i32], [.i32]⟩) :=
  typed_request rfl fun _ => typed_define_pure fun _ _ => .intro (by simp [swap32Body])

theorem typed_swap64 : Makes typing H swap64 (IsTyped ⟨[.i64], [.i64]⟩) :=
  .bind typed_swap32 fun _ =>
    typed_request rfl fun _ => typed_define_pure fun _ hp => .intro (by simp [swap64Body, hp])

theorem typed_reverseBlock16 : Makes typing H (reverseBlock 16) (IsTyped ⟨[.i32, .i32], []⟩) :=
  .bind typed_swap64 fun _ => typed_request rfl fun _ =>
    typed_define_pure fun _ hp => typed_reverseBlockBody hp.2 (.inl rfl)

theorem typed_reverseBlock32 : Makes typing H (reverseBlock 32) (IsTyped ⟨[.i32, .i32], []⟩) :=
  .bind typed_swap64 fun _ => typed_request rfl fun _ =>
    typed_define_pure fun _ hp => typed_reverseBlockBody hp.2 (.inr rfl)

theorem typed_requireZero : Makes typing H requireZero (IsTyped ⟨[.i32, .i32], []⟩) :=
  typed_request rfl fun _ => typed_define_pure fun _ _ => typed_requireZeroBody

theorem typed_checkZero (x off n : UInt32) :
    Makes typing H (checkZero x off n) (CheckTyped x) := by
  unfold checkZero
  split
  · exact .pure fun p _ => ⟨fun C s s' _ _ => by simp, by simp⟩
  · exact .bind typed_requireZero fun zero => .pure fun p hp =>
      ⟨fun C s s' hC hx => by simp [hC, hx, hp], by simp [hp]⟩

theorem typed_checkedWord (x off width : UInt32) :
    Makes typing H (checkedWord x off width) (WordTyped x) := by
  refine .bind typed_swap32 fun swap => .bind typed_requireZero fun zero => ?_
  exact .pure fun p hp => ⟨fun C s s' hC hx => by simp [loadWord, hC, hx, hp],
    by simp [loadWord, hp]⟩

/-! ## Packers -/

theorem typed_packWord (name : String) (t : MoveType) :
    Makes typing H (packWord name t) (IsTyped (packerType t)) := by
  have hsmall : ∀ {t : MoveType}, t.register = .i32 → Makes typing H
      (define name (packerParams t) [] do return ([], storeWord (← swap32) 1 0 0))
      (IsTyped (packerType t)) := fun ht =>
    typed_define (.bind typed_swap32 fun _ => .pure fun p hp =>
      .intro (by simp [packerParams, storeWord, ht, hp]))
  unfold packWord
  split
  · exact hsmall rfl
  · exact hsmall rfl
  · exact hsmall rfl
  · exact hsmall rfl
  · refine typed_define (.bind typed_swap32 fun _ => .pure fun p hp => ?_)
    exact .intro (by simp [writeTag, storeWord, packerParams, MoveType.register, hp])
  · refine .bind typed_swap64 fun _ => typed_define_pure fun p hp => .intro ?_
    simp [writeU64, packerParams, MoveType.register, hp]
  · refine .bind typed_reverseBlock16 fun _ => typed_define_pure fun p hp => .intro ?_
    simp [writeU128, packerParams, MoveType.register, hp]
  · refine .bind typed_reverseBlock32 fun _ => typed_define_pure fun p hp => .intro ?_
    simp [writeU256, packerParams, MoveType.register, hp]
  · refine typed_define_pure fun p hp => .intro ?_
    simp [copyBlock, packerParams, MoveType.register]
  · exact typed_define (.throw _)

theorem typed_packTagged (hH : ∀ p, H p → Allocates p) (name : String) (d : StructDef)
    (args : List MoveType) :
    Makes typing H (packTagged name d (.struct d.id args))
      (IsTyped (packerType (.struct d.id args))) := by
  unfold packTagged
  split
  · refine typed_define (.bind typed_swap32 fun _ => .pure fun p hp => .intro ?_)
    simp [packStringBody, packerParams, MoveType.register, writeOffset, storeWord, replicate_succ,
      hp, hH p hp.1]
  · refine typed_define_pure fun _ _ => .intro ?_
    simp [packBytesBody, packerParams, MoveType.register, copyBlock]

theorem typed_packRequest
    (h : ∀ b name, Makes typing H (gen b name) (IsTyped (packerType s.type))) :
    Makes typing H (packRequest r s gen) (IsTyped (packerType s.type)) :=
  .lift fun b _ => typed_request rfl (h b)

mutual

theorem typed_packShape {r : Registry} {H : Program → Prop} (hH : ∀ p, H p → Allocates p) :
    ∀ s : Shape, Makes typing H (packShape r s) (IsTyped (packerType s.type))
  | .vector e => by
    rw [packShape]
    refine typed_packRequest fun _ name => ?_
    refine .bind (.under (typed_packShape hH e)) fun func => .lift fun _ _ => .lift fun _ _ => ?_
    refine typed_define (.bind typed_swap32 fun _ => .pure fun p hp => .intro ?_)
    simp [packVectorBody, packerType, packerParams, MoveType.register, writeOffset, storeWord,
      replicate_succ, hp, hH p hp.1.1]
  | .struct d args fields => by
    rw [packShape]
    refine typed_packRequest fun dynamic name => .lift fun (offsets, _) _ => ?_
    refine .bind (typed_packFields hH d.name fields offsets) fun parts => typed_define ?_
    cases dynamic with
    | true =>
      refine .bind typed_swap32 fun _ => .pure fun p hp => .intro ?_
      simp [packDynamicBody, packerParams, MoveType.register, alloc, writeOffset, storeWord, hp,
        hH p hp.1.1]
    | false => exact .pure fun p hp => .intro (by
        simp [packStaticBody, packerParams, MoveType.register, hp])
  | .tagged d args => by
    rw [packShape]
    exact typed_packRequest fun _ name => typed_packTagged hH name d args
  | .bool | .int _ | .address | .signer | .param _ | .ref _ _ | .enum _ _ | .missing _ _
  | .broken _ _ _ | .endless _ _ => by
    unfold packShape
    exact typed_packRequest fun _ name => typed_packWord name _

theorem typed_packFields {r : Registry} {H : Program → Prop} (hH : ∀ p, H p → Allocates p)
    (owner : String) : ∀ (fields : FieldShapes) (offsets : List UInt32),
      Makes typing H (packFields r owner fields offsets) (PartsTyped packerType)
  | .nil, _ | .cons _ _ _, [] => by
    unfold packFields
    exact .pure fun _ _ => .nil
  | .cons name s rest, offset :: offsets => by
    rw [packFields]
    refine .bind (.under (typed_packShape hH s)) fun func => .lift fun head _ => ?_
    refine .bind (typed_packFields (fun p hp => hH p hp.1) owner rest offsets) fun parts => ?_
    exact .pure fun p hp => .cons hp.1.2 hp.2

end

theorem typed_pack (hH : ∀ p, H p → Allocates p) (t : MoveType) :
    Makes typing H (pack c t) (IsTyped (packerType t)) := by
  have h := typed_packShape (r := c.registry) hH (c.registry.shape t)
  rwa [Shape.type_shape] at h

/-! ## Unpackers -/

theorem typed_unpackWord (hH : ∀ p, H p → Allocates p) (name : String) (s : Shape) :
    Makes typing H (unpackWord name s) (IsTyped (unpackerType s.type)) := by
  unfold unpackWord
  split
  · exact typed_define (.bind (typed_checkedWord 0 0 1) fun _ => .pure fun p hp =>
      .intro (by simp [unpackBoolBody, MoveType.register, hp]))
  · exact typed_define (.bind (typed_checkedWord 0 0 1) fun _ => .pure fun p hp =>
      .intro (by simp [MoveType.register, hp]))
  · exact typed_define (.bind (typed_checkedWord 0 0 2) fun _ => .pure fun p hp =>
      .intro (by simp [MoveType.register, hp]))
  · exact typed_define (.bind (typed_checkedWord 0 0 4) fun _ => .pure fun p hp =>
      .intro (by simp [MoveType.register, hp]))
  · exact .bind typed_swap64 fun _ => typed_define (.bind (typed_checkZero 0 0 24) fun _ =>
      .pure fun p hp => .intro (by simp [unpackU64Body, MoveType.register, hp]))
  · exact .bind typed_reverseBlock16 fun _ => typed_define (.bind (typed_checkZero 0 0 16) fun _ =>
      .pure fun p hp => .intro (by
        simp [unpackU128Body, MoveType.register, alloc, hp, hH p hp.1.1]))
  · exact .bind typed_reverseBlock32 fun _ => typed_define_pure fun p hp =>
      .intro (by simp [unpackU256Body, MoveType.register, alloc, hp, hH p hp.1])
  · exact typed_define (.bind (typed_checkZero 0 0 12) fun _ => .pure fun p hp =>
      .intro (by simp [unpackCopyBody, MoveType.register, copyBlock, alloc, hp, hH p hp.1]))
  · split
    · exact .throw _
    · exact typed_define (.bind (typed_checkedWord 0 0 1) fun _ => .pure fun p hp =>
        .intro (by simp [unpackTagBody, MoveType.register, alloc, hp, hH p hp.1]))
  · exact typed_define (.throw _)

theorem typed_unpackTagged (hH : ∀ p, H p → Allocates p) (name : String) (d : StructDef)
    (args : List MoveType) :
    Makes typing H (unpackTagged name d (.struct d.id args))
      (IsTyped (unpackerType (.struct d.id args))) := by
  unfold unpackTagged
  split
  · exact typed_define (.bind (typed_checkedWord 0 0 4) fun _ =>
      .bind (typed_checkedWord 2 0 4) fun _ => .pure fun p hp => .intro (by
        simp [unpackStringBody, MoveType.register, followOffset, boundedLength, vectorHeader,
          alloc, replicate_succ, callEnd, hp, hH p hp.1.1]))
  · exact typed_define (.bind (typed_checkZero 0 _ _) fun _ => .pure fun p hp =>
      .intro (by simp [unpackCopyBody, MoveType.register, copyBlock, alloc, hp, hH p hp.1]))
  · exact typed_define_pure fun p hp =>
      .intro (by simp [unpackIdentifierBody, MoveType.register, copyBlock, alloc, hH p hp])
  · exact .throw _

theorem typed_unpackRequest
    (h : ∀ b name, Makes typing H (gen b name) (IsTyped (unpackerType s.type))) :
    Makes typing H (unpackRequest r s gen) (IsTyped (unpackerType s.type)) :=
  .lift fun b _ => .lift fun _ _ => typed_request rfl (h b)

mutual

theorem typed_unpackShape {r : Registry} {H : Program → Prop} (hH : ∀ p, H p → Allocates p) :
    ∀ s : Shape, Makes typing H (unpackShape r s) (IsTyped (unpackerType s.type))
  | .vector e => by
    rw [unpackShape]
    refine typed_unpackRequest fun _ name => ?_
    refine .bind (.under (typed_unpackShape hH e)) fun func => .lift fun _ _ => .lift fun _ _ => ?_
    refine typed_define (.bind (typed_checkedWord 0 0 4) fun _ =>
      .bind (typed_checkedWord 2 0 4) fun _ => .pure fun p hp => .intro ?_)
    simp [unpackVectorBody, unpackerType, MoveType.register, followOffset, boundedLength,
      vectorHeader, replicate_succ, callEnd, hp, hH p hp.1.1.1]
  | .struct d args fields => by
    rw [unpackShape]
    refine typed_unpackRequest fun dynamic name => .lift fun (offsets, size) _ => ?_
    refine .bind (typed_unpackFields hH d.name fields offsets) fun parts => typed_define ?_
    cases dynamic with
    | true =>
      refine .bind (typed_checkedWord 0 0 4) fun _ => .pure fun p hp => .intro ?_
      simp [unpackDynamicBody, MoveType.register, followOffset, alloc, callEnd, hp, hH p hp.1.1]
    | false => exact .pure fun p hp => .intro (by
        simp [unpackStaticBody, MoveType.register, alloc, hp, hH p hp.1])
  | .tagged d args => by
    rw [unpackShape]
    exact typed_unpackRequest fun _ name => typed_unpackTagged hH name d args
  | .bool | .int _ | .address | .signer | .param _ | .ref _ _ | .enum _ _ | .missing _ _
  | .broken _ _ _ | .endless _ _ => by
    unfold unpackShape
    exact typed_unpackRequest fun _ name => typed_unpackWord hH name _

theorem typed_unpackFields {r : Registry} {H : Program → Prop} (hH : ∀ p, H p → Allocates p)
    (owner : String) : ∀ (fields : FieldShapes) (offsets : List UInt32),
      Makes typing H (unpackFields r owner fields offsets) (PartsTyped unpackerType)
  | .nil, _ | .cons _ _ _, [] => by
    unfold unpackFields
    exact .pure fun _ _ => .nil
  | .cons name s rest, offset :: offsets => by
    rw [unpackFields]
    refine .bind (.under (typed_unpackShape hH s)) fun func => .lift fun head _ => ?_
    refine .bind (typed_unpackFields (fun p hp => hH p hp.1) owner rest offsets) fun parts => ?_
    exact .pure fun p hp => .cons hp.1.2 hp.2

end

theorem typed_unpack (hH : ∀ p, H p → Allocates p) (t : MoveType) :
    Makes typing H (unpack c t) (IsTyped (unpackerType t)) := by
  have h := typed_unpackShape (r := c.registry) hH (c.registry.shape t)
  rwa [Shape.type_shape] at h

end Codec

end MoveCodec
