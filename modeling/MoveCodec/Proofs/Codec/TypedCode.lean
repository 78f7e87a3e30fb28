import MoveCodec.Codec.Payload
import MoveCodec.Proofs.Machine.Termination

/-!
# Types of generated code

The pieces and templates of generated code, each with what it needs and what it leaves on the
stack. Needed are locals of the right types, and functions of the right types whose calls stop.
-/
namespace MoveCodec

open List

namespace Machine

open Wasm

/-- What the functions of a generated program are typed against. Generated code does not divide. -/
def Program.surroundings (p : Program) : Surroundings where
  types := p.types.toList
  funcs := p.typeOf?
  globals := Prelude.globals.map fun g => (g.type, g.mutable)
  memory := true
  division := false

section

variable (p : Program)

@[simp] theorem Program.funcs_surroundings : p.surroundings.funcs = p.typeOf? := by rfl

@[simp] theorem Program.globals_surroundings :
    p.surroundings.globals = [(.i32, true), (.i32, true), (.i32, true)] := by
  rfl

@[simp] theorem Program.memory_surroundings : p.surroundings.memory = true := by rfl

end

end Machine

theorem MoveType.register_isNumber (t : MoveType) : t.register.IsNumber := by
  unfold MoveType.register
  split
  · exact .inr rfl
  · exact .inl rfl

namespace Codec

open Wasm Wasm.Emit Wasm.Code Assembly Machine Prelude

variable {swap zero : FuncId} {off at' x n d width off' tag v : UInt32} {parts topics : List Part} {p : Program}
  {C : Frame}

section

variable {p : Program} {C : Frame} {s s' : List ValType}

/-! ## Control -/

@[simp] theorem stepTyped_trapIf : StepTyped C trapIf s s' ↔ s = .i32 :: s' := by
  simp [trapIf]

@[simp] theorem stepTyped_forever {body : Code} :
    StepTyped C (forever body) s s' ↔
      s' = s ∧ ∃ m, Typed ((C.enter []).enter []) body [] m := by
  simp [forever]

@[simp] theorem stepTyped_upTo {i : UInt32} {body : Code} (hi : C.locals[i.toNat]? = some .i32)
    (hn : C.locals[n.toNat]? = some .i32) : StepTyped C (upTo i n body) s s' ↔
      s' = s ∧ ∃ m, Typed ((C.enter []).enter []) body [] m := by
  simp [upTo, hi, hn]

@[simp] theorem typed_addr (hx : C.locals[x.toNat]? = some .i32) :
    Typed C (addr x n) s s' ↔ s' = .i32 :: s := by
  unfold addr
  split <;> simp [hx]

/-- Pieces that each leave the stack as it was. -/
theorem typed_flatMap {α : Type} {f : α → Code} (h : ∀ a s s', Typed C (f a) s s' ↔ s' = s)
    (as : List α) : Typed C (as.flatMap f) s s' ↔ s' = s := by
  induction as generalizing s with
  | nil => simp
  | cons a as ih => simp [h, ih]

/-! ## Routines -/

@[simp] theorem typed_fillZero (hmem : C.memory = true) (hd : C.locals[d.toNat]? = some .i32) :
    Typed C (fillZero d off n) s s' ↔ s' = s := by
  unfold fillZero
  split <;> simp [hd, hmem, @eq_comm _ s s']

@[simp] theorem typed_requireZeroAt (hzero : C.funcs zero = some ⟨[.i32, .i32], []⟩)
    (hx : C.locals[x.toNat]? = some .i32) : Typed C (requireZeroAt zero x off n) s s' ↔ s' = s := by
  unfold requireZeroAt
  split <;> simp [hx, hzero, @eq_comm _ s s']

end

@[simp] theorem stepBounded_trapIf : StepBounded p trapIf := by simp [trapIf]

@[simp] theorem bounded_addr : Bounded p (addr x n) := by
  unfold addr
  split <;> simp

@[simp] theorem bounded_fillZero : Bounded p (fillZero d off n) := by
  unfold fillZero
  split <;> simp

@[simp] theorem bounded_requireZeroAt (hzero : FuncStops p zero) :
    Bounded p (requireZeroAt zero x off n) := by
  unfold requireZeroAt
  split <;> simp [hzero]

theorem bounded_flatMap {α : Type} {f : α → Code} (h : ∀ a, Bounded p (f a)) (as : List α) :
    Bounded p (as.flatMap f) := by
  induction as with
  | nil => simp
  | cons a as ih => simp [h, ih]

/-! ## Functions -/

/-- The function has a type and its calls stop. -/
abbrev IsTyped (t : FuncType) (f : FuncId) (p : Program) : Prop :=
  p.typeOf? f = some t ∧ FuncStops p f

structure BodyTyped (p : Program) (t : FuncType) (locals : List ValType) (code : Code) : Prop where
  typed : t.params.length + locals.length ≤ UInt32.size → p.surroundings.FuncTyped t locals code
  bounded : Bounded p code

theorem BodyTyped.intro {t : FuncType} {locals : List ValType} {code : Code}
    (h : (∀ l ∈ locals, l.IsNumber) ∧
      Typed (p.surroundings.frame t locals) code [] t.results.reverse ∧ Bounded p code) :
    BodyTyped p t locals code :=
  ⟨fun _ => ⟨h.1, h.2.1⟩, h.2.2⟩

theorem typed_allocateBody : BodyTyped p ⟨[.i32], [.i32]⟩ allocateLocals allocateBody :=
  .intro (by simp [allocateLocals, allocateBody, heapTop])

theorem typed_reverseBlockBody (hswap : IsTyped ⟨[.i64], [.i64]⟩ swap p) {n : Nat}
    (hn : n = 2 ∨ n = 4) :
    BodyTyped p ⟨[.i32, .i32], []⟩ (List.replicate n .i64) (reverseBlockBody swap n) := by
  refine .intro ?_
  rcases hn with rfl | rfl <;> simp [reverseBlockBody, hswap, range_succ, replicate_succ]

theorem typed_requireZeroBody :
    BodyTyped p ⟨[.i32, .i32], []⟩ [] requireZeroBody :=
  let round : Code := [push 0, load8 0, trapIf, push 0, const 1, add, pop 0]
  have hkeeps : Keeps 1 round := by simp [round, trapIf]
  .intro ⟨nofun, by simp [requireZeroBody], stepBounded_downFrom hkeeps (by simp [round]), trivial⟩

/-! ## Records -/

def packerType (t : MoveType) : FuncType := ⟨packerParams t, []⟩

def unpackerType (t : MoveType) : FuncType := ⟨[.i32, .i32], [t.register]⟩

/-- The functions of the parts have the types that theirs ask for. -/
def PartsHave (type : MoveType → FuncType) (funcs : FuncId → Option FuncType)
    (parts : List Part) : Prop :=
  ∀ q ∈ parts, funcs q.func = some (type q.type)

def PartsStop (p : Program) (parts : List Part) : Prop := ∀ q ∈ parts, FuncStops p q.func

abbrev PartsTyped (type : MoveType → FuncType) (parts : List Part) (p : Program) : Prop :=
  PartsHave type p.typeOf? parts ∧ PartsStop p parts

theorem PartsTyped.nil {type : MoveType → FuncType} : PartsTyped type [] p :=
  ⟨nofun, nofun⟩

theorem PartsTyped.cons {type : MoveType → FuncType} {p : Program} {q : Part} {parts : List Part}
    (hq : IsTyped (type q.type) q.func p) (hparts : PartsTyped type parts p) :
    PartsTyped type (q :: parts) p :=
  ⟨forall_mem_cons.2 ⟨hq.1, hparts.1⟩, forall_mem_cons.2 ⟨hq.2, hparts.2⟩⟩

section

variable {C : Frame} {s s' : List ValType} (hmem : C.memory = true)

include hmem

@[simp] theorem stepTyped_loadValue {t : MoveType} :
    StepTyped C (loadValue t off) s s' ↔ ∃ rest, s = .i32 :: rest ∧ s' = t.register :: rest := by
  cases t with
  | int w => cases w <;> simp [loadValue, MoveType.register, hmem]
  | _ => simp [loadValue, MoveType.register, hmem]

@[simp] theorem stepTyped_storeValue {t : MoveType} :
    StepTyped C (storeValue t off) s s' ↔ s = t.register :: .i32 :: s' := by
  cases t with
  | int w => cases w <;> simp [storeValue, MoveType.register, hmem]
  | _ => simp [storeValue, MoveType.register, hmem]

variable {rec x base : UInt32} (hrec : C.locals[rec.toNat]? = some .i32)
  (hx : C.locals[x.toNat]? = some .i32) (hbase : C.locals[base.toNat]? = some .i32)

include hrec hx hbase

@[simp] theorem typed_packParts (hparts : PartsHave packerType C.funcs parts) :
    Typed C (packParts rec x base at' parts) s s' ↔ s' = s := by
  induction parts generalizing s at' with
  | nil => simp [packParts]
  | cons q parts ih =>
    obtain ⟨hq, hrest⟩ := forall_mem_cons.1 hparts
    rw [packParts]
    split <;>
      simp [hmem, hrec, hx, hbase, hq, packerType, packerParams, ih hrest, @eq_comm _ s s']

@[simp] theorem typed_unpackParts (hparts : PartsHave unpackerType C.funcs parts) :
    Typed C (unpackParts rec x base at' parts) s s' ↔ s' = s := by
  induction parts generalizing s at' with
  | nil => simp [unpackParts]
  | cons q parts ih =>
    obtain ⟨hq, hrest⟩ := forall_mem_cons.1 hparts
    simp [unpackParts, hmem, hrec, hx, hbase, hq, unpackerType, ih hrest, @eq_comm _ s s']

end

section

variable {p : Program} {t : MoveType} {off : UInt32}

@[simp] theorem stepBounded_loadValue : StepBounded p (loadValue t off) := by
  unfold loadValue
  split <;> simp

@[simp] theorem stepBounded_storeValue : StepBounded p (storeValue t off) := by
  unfold storeValue
  split <;> simp

@[simp] theorem stepKeeps_loadValue : StepKeeps x (loadValue t off) := by
  unfold loadValue
  split <;> simp

@[simp] theorem stepKeeps_storeValue : StepKeeps x (storeValue t off) := by
  unfold storeValue
  split <;> simp

variable {rec x base at' : UInt32} {parts : List Part} (hparts : PartsStop p parts)

include hparts

@[simp] theorem bounded_packParts : Bounded p (packParts rec x base at' parts) := by
  induction parts generalizing at' with
  | nil => simp [packParts]
  | cons q parts ih =>
    obtain ⟨hq, hrest⟩ := forall_mem_cons.1 hparts
    rw [packParts]
    split <;> simp [hq, ih hrest]

@[simp] theorem bounded_unpackParts : Bounded p (unpackParts rec x base at' parts) := by
  induction parts generalizing at' with
  | nil => simp [unpackParts]
  | cons q parts ih =>
    obtain ⟨hq, hrest⟩ := forall_mem_cons.1 hparts
    simp [unpackParts, hq, ih hrest]

end

@[simp] theorem typed_openIdentifier {s s' : List ValType} (hmem : C.memory = true)
    (tag : NativeTag) : Typed C (openIdentifier tag) (.i32 :: s) s' ↔ s' = .i32 :: s := by
  cases tag <;> simp [openIdentifier, hmem]

@[simp] theorem bounded_openIdentifier (tag : NativeTag) : Bounded p (openIdentifier tag) := by
  cases tag <;> simp [openIdentifier]

/-- The code reads a word from the address in a local and pushes its value. -/
abbrev WordTyped (x : UInt32) (word : Code) (p : Program) : Prop :=
  (∀ (C : Frame) (s s' : List ValType), C.toSurroundings = p.surroundings →
    C.locals[x.toNat]? = some .i32 → (Typed C word s s' ↔ s' = .i32 :: s)) ∧ Bounded p word

abbrev CheckTyped (x : UInt32) (check : Code) (p : Program) : Prop :=
  (∀ (C : Frame) (s s' : List ValType), C.toSurroundings = p.surroundings →
    C.locals[x.toNat]? = some .i32 → (Typed C check s s' ↔ s' = s)) ∧ Bounded p check

/-! ## Topics -/

@[simp] theorem typed_topicCode {s s' : List ValType} (hmem : C.memory = true)
    (h1 : C.locals[1]? = some .i32) (topic : Word) : Typed C (topicCode topic) s s' ↔ s' = s := by
  refine typed_flatMap (fun i s s' => ?_) _
  simp [hmem, h1, @eq_comm _ s s']

@[simp] theorem typed_topicsCode {s s' : List ValType} (hmem : C.memory = true)
    (h0 : C.locals[0]? = some .i32) (h1 : C.locals[1]? = some .i32)
    (htopics : PartsHave packerType C.funcs topics) :
    Typed C (topicsCode at' topics) s s' ↔ s' = s := by
  induction topics generalizing s at' with
  | nil => simp [topicsCode]
  | cons q topics ih =>
    obtain ⟨hq, hrest⟩ := forall_mem_cons.1 htopics
    simp [topicsCode, hmem, h0, h1, hq, packerType, packerParams, ih hrest, @eq_comm _ s s']

@[simp] theorem bounded_topicCode (topic : Word) : Bounded p (topicCode topic) :=
  bounded_flatMap (fun _ => by simp) _

@[simp] theorem bounded_topicsCode (htopics : PartsStop p topics) :
    Bounded p (topicsCode at' topics) := by
  induction topics generalizing at' with
  | nil => simp [topicsCode]
  | cons q topics ih =>
    obtain ⟨hq, hrest⟩ := forall_mem_cons.1 htopics
    simp [topicsCode, hq, ih hrest]

end Codec

end MoveCodec
