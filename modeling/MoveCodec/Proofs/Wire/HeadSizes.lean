import MoveCodec.Proofs.Types.Registry

/-!
# Sizes of heads

The head of a dynamic value is one word. That of a static value is as long as the scalars in it,
but it is computed with 32 bits, and definitions that nest can double it at every level.
-/
namespace MoveCodec

mutual

/-- The scalars that a static value consists of, each of one word. -/
def Form.scalars : Form → Nat
  | .struct fields => fields.scalars
  | _ => 1

def Forms.scalars : Forms → Nat
  | .nil => 0
  | .cons _ f fs => f.scalars + fs.scalars

end

mutual

theorem Form.size_eq : ∀ f : Form, f.size = 32 * f.scalars
  | .struct fields => Forms.size_eq fields
  | .bool | .int _ | .address | .enum _ | .string | .bytes _ | .uid | .id | .vector _ => rfl

theorem Forms.size_eq : ∀ fs : Forms, fs.size = 32 * fs.scalars
  | .nil => rfl
  | .cons _ f fs => by rw [Forms.size, Forms.scalars, f.size_eq, fs.size_eq, Nat.mul_add]

end

namespace Registry

variable {r : Registry} {t : MoveType} {b : Bool}

theorem Made.exists_headSize (hr : r.Made) (h : r.isDynamic t = .ok b) :
    ∃ form, HasForm r t form ∧ form.dynamic = b ∧ r.headSize t = .ok form.headWord := by
  have hfollows := Shape.follows_shape (r := r) t
  have hclassed := Shape.classed_of_isDynamic h
  obtain ⟨form, hform⟩ := hclassed.exists_form hr hfollows
  obtain ⟨n, hn⟩ := hclassed.exists_headSize
  refine ⟨form, Shape.type_shape t ▸ hform, (Shape.agrees_of_isDynamic hfollows hform h).1, ?_⟩
  rw [headSize, hn, Shape.headSize_eq hfollows hform hn]

/-! ## Nested pairs -/

/-- A struct of two fields of its parameter. -/
def pair : StructDef :=
  { id := ⟨⟨Word.ofNat 7, "pair"⟩, 0⟩, name := "Pair", arity := 1,
    fields := [⟨"first", .param 0⟩, ⟨"second", .param 0⟩] }

def pairs : Registry := { structs := [pair] }

theorem made_pairs : pairs.Made := by
  have hadd : ({} : Registry).addStruct pair 0 = .ok (pair, pairs) := rfl
  exact .addStruct .empty hadd

/-- Pairs of pairs, down to bytes. -/
def nested : Nat → MoveType
  | 0 => .int .w8
  | depth + 1 => pair.type [nested depth]

theorem exists_form_nested (depth : Nat) :
    ∃ form, HasForm pairs (nested depth) form ∧ form.scalars = 2 ^ depth := by
  induction depth with
  | zero => exact ⟨_, .int .w8, rfl⟩
  | succ depth ih =>
    obtain ⟨form, hform, hscalars⟩ := ih
    have hd : pairs.structOf pair.id [nested depth] = .ok pair := rfl
    refine ⟨_, .struct hd rfl rfl (.cons hform (.cons hform .nil)), ?_⟩
    rw [Form.scalars, Forms.scalars, Forms.scalars, Forms.scalars, hscalars, pow_succ]
    omega

theorem shape_nested (depth : Nat) : pairs.shape (nested (depth + 1)) =
    .struct pair [nested depth] (.cons "first" (pairs.shape (nested depth))
      (.cons "second" (pairs.shape (nested depth)) .nil)) := by
  have htype := Shape.type_shape (r := pairs) (nested depth)
  have hd : pairs.structOf pair.id [nested depth] = .ok pair := rfl
  rw [shape, Shape.expand_eq] at htype ⊢
  rw [nested, StructDef.type, Shape.ofType, Shape.ofTypes, Shape.ofTypes, List.map_cons, htype,
    List.map_nil, hd]
  rfl

theorem isDynamic_nested (depth : Nat) : pairs.isDynamic (nested depth) = .ok false := by
  induction depth with
  | zero => rfl
  | succ depth ih =>
    unfold isDynamic at ih ⊢
    rw [shape_nested, Shape.isDynamic, Shape.fieldsDynamic, Shape.fieldsDynamic, ih]
    rfl

/-- `2 ^ 27` bytes, each in a word of its own, are given a head of no bytes. -/
theorem headSize_nested : pairs.headSize (nested 27) = .ok 0 ∧
    ∃ form, HasForm pairs (nested 27) form ∧ form.dynamic = false ∧ form.scalars = 2 ^ 27 := by
  obtain ⟨form, hform, hdynamic, hsize⟩ := made_pairs.exists_headSize (isDynamic_nested 27)
  obtain ⟨form', hform', hscalars⟩ := exists_form_nested 27
  obtain rfl := hform.unique hform'
  refine ⟨?_, form, hform, hdynamic, hscalars⟩
  rw [hsize, Form.headWord, Form.head, hdynamic, if_neg nofun, Form.size_eq, hscalars]
  rfl

/-- A type that has a class has a head. Its size is exact for less than `2 ^ 27` scalars and reduced
modulo `2 ^ 32` for more. -/
theorem Made.headSize_reduced (hr : r.Made) (h : r.isDynamic t = .ok b) :
    ∃ form n, HasForm r t form ∧ form.dynamic = b ∧ r.headSize t = .ok n ∧
      n.toNat = (if b then 32 else 32 * form.scalars % 2 ^ 32) ∧
      (b = false → (n.toNat = 32 * form.scalars ↔ form.scalars < 2 ^ 27)) := by
  obtain ⟨form, hform, hdynamic, hsize⟩ := hr.exists_headSize h
  have hn : form.headWord.toNat = if b then 32 else 32 * form.scalars % 2 ^ 32 := by
    rw [Form.headWord, Form.head, hdynamic, Form.size_eq]
    cases b <;> simp
  refine ⟨form, form.headWord, hform, hdynamic, hsize, hn, ?_⟩
  rintro rfl
  simp only [Bool.false_eq_true, if_false] at hn
  omega

theorem headSize_reduced_nested : pairs.isDynamic (nested 27) = .ok false ∧
    ∃ form n, HasForm pairs (nested 27) form ∧ form.dynamic = false ∧
      pairs.headSize (nested 27) = .ok n ∧
      n.toNat = (if false then 32 else 32 * form.scalars % 2 ^ 32) ∧
      (false = false → (n.toNat = 32 * form.scalars ↔ form.scalars < 2 ^ 27)) :=
  ⟨isDynamic_nested 27, made_pairs.headSize_reduced (isDynamic_nested 27)⟩

end Registry

end MoveCodec
