import MoveCodec.Machine.Exec
import Mathlib.Data.List.Basic

/-!
# Typed code

The rules by which code is valid: at each instruction the operands on the stack have the types it
takes, and labels, locals, globals and functions exist. Stacks are lists of types with the top
first. Code after an unconditional jump can be given any stack.
-/
namespace MoveCodec.Wasm

open List

def ValType.IsNumber (t : ValType) : Prop := t = .i32 ∨ t = .i64

@[simp] theorem ValType.isNumber_i32 : IsNumber .i32 := .inl rfl

@[simp] theorem ValType.isNumber_i64 : IsNumber .i64 := .inr rfl

/-- What the functions of a module are typed against. Division, which can trap, may be ruled out. -/
structure Surroundings where
  types : List FuncType
  funcs : UInt32 → Option FuncType
  /-- Types of the globals, and whether they can be set. -/
  globals : List (ValType × Bool)
  memory : Bool
  division : Bool

/-- What the instructions of a body are typed against. -/
structure Frame extends Surroundings where
  locals : List ValType
  /-- What a jump takes along, innermost block first. -/
  labels : List (List ValType)
  results : List ValType

namespace Frame

/-- Inside a block. -/
def enter (C : Frame) (label : List ValType) : Frame := { C with labels := label :: C.labels }

section

variable (C : Frame) (label : List ValType)

@[simp] theorem toSurroundings_enter : (C.enter label).toSurroundings = C.toSurroundings := by rfl

@[simp] theorem locals_enter : (C.enter label).locals = C.locals := by rfl

@[simp] theorem labels_enter : (C.enter label).labels = label :: C.labels := by rfl

@[simp] theorem results_enter : (C.enter label).results = C.results := by rfl

end

def blockType? (C : Frame) (t : BlockType) : Option FuncType :=
  if t = -64 then some ⟨[], []⟩
  else if t = -1 then some ⟨[], [.i32]⟩
  else if t = -2 then some ⟨[], [.i64]⟩
  else if t < 0 then none
  else C.types[t.toInt.toNat]?

@[simp] theorem blockType?_void (C : Frame) : C.blockType? .void = some ⟨[], []⟩ := rfl

/-- The locals from `v` on have types. Locals can be numbered. -/
def HasLocals (C : Frame) (v : UInt32) (types : List ValType) : Prop :=
  C.locals.length ≤ UInt32.size ∧
    ∃ before after, C.locals = before ++ types ++ after ∧ v = UInt32.ofNat before.length

section

variable {C : Frame} {v : UInt32} {types types' : List ValType}

theorem HasLocals.get (h : C.HasLocals v types) {i : Nat} {t : ValType}
    (hi : types[i]? = some t) : C.locals[(v + UInt32.ofNat i).toNat]? = some t := by
  obtain ⟨hsize, before, after, heq, rfl⟩ := h
  have hlt : i < types.length := (List.getElem?_eq_some_iff.1 hi).1
  have hbound : before.length + i < UInt32.size := by
    rw [heq] at hsize
    simp only [length_append] at hsize
    omega
  rw [← UInt32.ofNat_add, UInt32.toNat_ofNat_of_lt' hbound, heq, append_assoc,
    getElem?_append_right (Nat.le_add_right _ _), Nat.add_sub_cancel_left,
    getElem?_append_left hlt, hi]

theorem HasLocals.head {t : ValType} (h : C.HasLocals v (t :: types)) :
    C.locals[v.toNat]? = some t :=
  UInt32.add_zero v ▸ h.get (i := 0) rfl

theorem HasLocals.second {t u : ValType} (h : C.HasLocals v (t :: u :: types)) :
    C.locals[(v + 1).toNat]? = some u :=
  h.get (i := 1) rfl

theorem HasLocals.left (h : C.HasLocals v (types ++ types')) : C.HasLocals v types := by
  obtain ⟨hsize, before, after, heq, hv⟩ := h
  exact ⟨hsize, before, types' ++ after, by simp [heq], hv⟩

theorem HasLocals.right (h : C.HasLocals v (types ++ types')) :
    C.HasLocals (v + UInt32.ofNat types.length) types' := by
  obtain ⟨hsize, before, after, heq, rfl⟩ := h
  refine ⟨hsize, before ++ types, after, by simp [heq], ?_⟩
  rw [length_append, UInt32.ofNat_add]

end

end Frame

@[simp] def LoadOp.type : LoadOp → ValType
  | .i32 | .i32From8 | .i32From16 => .i32
  | .i64 | .i64From8 | .i64From32 => .i64

/-- The natural alignment, as a power of two. -/
@[simp] def LoadOp.alignment : LoadOp → Nat
  | .i32 | .i64From32 => 2
  | .i64 => 3
  | .i32From8 | .i64From8 => 0
  | .i32From16 => 1

@[simp] def StoreOp.type : StoreOp → ValType
  | .i32 | .i32To8 | .i32To16 => .i32
  | .i64 | .i64To8 => .i64

@[simp] def StoreOp.alignment : StoreOp → Nat
  | .i32 => 2
  | .i64 => 3
  | .i32To8 | .i64To8 => 0
  | .i32To16 => 1

/-- What an instruction takes from the stack and what it puts there, for those that go on with the
next and take operands of one type. -/
@[simp] def Op.signature? (C : Frame) : Op → Option (List ValType × List ValType)
  | .unreachable | .br _ | .brTable _ _ | .ret | .drop | .select => none
  | .nop => some ([], [])
  | .brIf l => (C.labels[l.toNat]?).map fun ts => (.i32 :: ts.reverse, ts.reverse)
  | .call f => (C.funcs f).map fun t => (t.params.reverse, t.results.reverse)
  | .localGet x => (C.locals[x.toNat]?).map fun t => ([], [t])
  | .localSet x => (C.locals[x.toNat]?).map fun t => ([t], [])
  | .localTee x => (C.locals[x.toNat]?).map fun t => ([t], [t])
  | .globalGet x => (C.globals[x.toNat]?).map fun g => ([], [g.1])
  | .globalSet x => ((C.globals[x.toNat]?).filter (·.2)).map fun g => ([g.1], [])
  | .load op align _ =>
    if C.memory ∧ align.toNat ≤ op.alignment then some ([.i32], [op.type]) else none
  | .store op align _ =>
    if C.memory ∧ align.toNat ≤ op.alignment then some ([op.type, .i32], []) else none
  | .memorySize => if C.memory then some ([], [.i32]) else none
  | .memoryGrow => if C.memory then some ([.i32], [.i32]) else none
  | .memoryCopy | .memoryFill => if C.memory then some ([.i32, .i32, .i32], []) else none
  | .i32Const _ => some ([], [.i32])
  | .i64Const _ => some ([], [.i64])
  | .i32Eqz => some ([.i32], [.i32])
  | .i32Rel _ => some ([.i32, .i32], [.i32])
  | .i32Bin o => if o = .divU ∧ !C.division then none else some ([.i32, .i32], [.i32])
  | .i64Eqz => some ([.i64], [.i32])
  | .i64Rel _ => some ([.i64, .i64], [.i32])
  | .i64Bin _ => some ([.i64, .i64], [.i64])
  | .wrap => some ([.i64], [.i32])
  | .extend => some ([.i32], [.i64])

/-- An instruction takes a stack to another. -/
@[simp] def Op.Typed (C : Frame) (s s' : List ValType) : Op → Prop
  | .unreachable => True
  | .ret => C.results.reverse <+: s
  | .drop => ∃ t, s = t :: s'
  | .select => ∃ t rest, t.IsNumber ∧ s = .i32 :: t :: t :: rest ∧ s' = t :: rest
  | .br l => ∃ ts, C.labels[l.toNat]? = some ts ∧ ts.reverse <+: s
  | .brTable ls d => ∃ ts, (∀ l ∈ d :: ls, C.labels[l.toNat]? = some ts) ∧ .i32 :: ts.reverse <+: s
  | o => ∃ takes gives rest, o.signature? C = some (takes, gives) ∧ s = takes ++ rest ∧
      s' = gives ++ rest

namespace Code

mutual

@[simp] def StepTyped (C : Frame) : Step → List ValType → List ValType → Prop
  | .op o, s, s' => o.Typed C s s'
  | .block t body, s, s' => ∃ ft rest, C.blockType? t = some ft ∧ s = ft.params.reverse ++ rest ∧
      s' = ft.results.reverse ++ rest ∧
      Typed (C.enter ft.results) body ft.params.reverse ft.results.reverse
  | .loop t body, s, s' => ∃ ft rest, C.blockType? t = some ft ∧ s = ft.params.reverse ++ rest ∧
      s' = ft.results.reverse ++ rest ∧
      Typed (C.enter ft.params) body ft.params.reverse ft.results.reverse
  | .branch t yes no, s, s' => ∃ ft rest, C.blockType? t = some ft ∧
      s = .i32 :: ft.params.reverse ++ rest ∧ s' = ft.results.reverse ++ rest ∧
      Typed (C.enter ft.results) yes ft.params.reverse ft.results.reverse ∧
      Typed (C.enter ft.results) no ft.params.reverse ft.results.reverse

@[simp] def Typed (C : Frame) : List Step → List ValType → List ValType → Prop
  | [], s, s' => s' = s
  | c :: rest, s, s' => ∃ m, StepTyped C c s m ∧ Typed C rest m s'

end

@[simp] theorem typed_append {C : Frame} {a b : Code} {s s' : List ValType} :
    Typed C (a ++ b) s s' ↔ ∃ m, Typed C a s m ∧ Typed C b m s' := by
  induction a generalizing s with
  | nil => simp [Typed]
  | cons c a ih =>
    simp only [cons_append, Typed, ih]
    exact ⟨fun ⟨m, hc, n, ha, hb⟩ => ⟨n, ⟨m, hc, ha⟩, hb⟩,
      fun ⟨n, ⟨m, hc, ha⟩, hb⟩ => ⟨m, hc, n, ha, hb⟩⟩

end Code

namespace Surroundings

def frame (E : Surroundings) (t : FuncType) (locals : List ValType) : Frame :=
  { E with locals := t.params ++ locals, labels := [t.results], results := t.results }

section

variable (E : Surroundings) (t : FuncType) (locals : List ValType)

@[simp] theorem toSurroundings_frame : (E.frame t locals).toSurroundings = E := by rfl

@[simp] theorem locals_frame : (E.frame t locals).locals = t.params ++ locals := by rfl

@[simp] theorem labels_frame : (E.frame t locals).labels = [t.results] := by rfl

@[simp] theorem results_frame : (E.frame t locals).results = t.results := by rfl

variable {E t} in
/-- The last locals of a function. -/
theorem hasLocals_frame {types : List ValType}
    (h : t.params.length + (locals ++ types).length ≤ UInt32.size) :
    (E.frame t (locals ++ types)).HasLocals (UInt32.ofNat (t.params ++ locals).length) types :=
  ⟨by simpa using h, t.params ++ locals, [], by simp, rfl⟩

end

/-- A function has a body that ends with exactly its results. -/
def FuncTyped (E : Surroundings) (t : FuncType) (locals : List ValType) (body : Code) : Prop :=
  (∀ l ∈ locals, l.IsNumber) ∧ Code.Typed (E.frame t locals) body [] t.results.reverse

end Surroundings

end MoveCodec.Wasm
