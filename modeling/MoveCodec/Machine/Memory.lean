import MoveCodec.Bytes

/-!
# Linear memory

Memory is a row of pages, and a page that was never written holds no bytes. What a reader sees is
`Memory.byte`: one byte for each address, zero outside. Reads and writes of byte strings are
checked against the size; nothing is written when a write does not fit.
-/
namespace MoveCodec.Machine

def pageSize : Nat := 65536

/-- A page of `n` bytes; `none` stands for zeros. -/
abbrev Page (n : Nat) := Option (Vector UInt8 n)

namespace Page

variable {n : Nat}

def byte (p : Page n) (i : Nat) : UInt8 :=
  match p with
  | none => 0
  | some v => if h : i < n then v[i] else 0

def set (p : Page n) (i : Nat) (b : UInt8) : Page n :=
  match p with
  | none => some ((Vector.replicate n 0).setIfInBounds i b)
  | some v => some (v.setIfInBounds i b)

theorem byte_set (p : Page n) (i j : Nat) (b : UInt8) (hj : j < n) :
    (p.set i b).byte j = if i = j then b else p.byte j := by
  cases p <;> simp [byte, set, hj, Vector.getElem_setIfInBounds]

end Page

structure Memory where
  pages : Array (Page pageSize)
  limit : Nat

namespace Memory

def zeros (pages limit : Nat) : Memory := ⟨Array.replicate pages none, limit⟩

def size (m : Memory) : Nat := m.pages.size * pageSize

/-- The byte at an address; zero outside the memory. -/
def byte (m : Memory) (a : Nat) : UInt8 :=
  (m.pages.getD (a / pageSize) none).byte (a % pageSize)

def setByte (m : Memory) (a : Nat) (b : UInt8) : Memory :=
  { m with pages := m.pages.modify (a / pageSize) fun p => p.set (a % pageSize) b }

@[simp] theorem size_setByte (m : Memory) (a : Nat) (b : UInt8) :
    (m.setByte a b).size = m.size := by
  simp [setByte, size]

theorem byte_setByte (m : Memory) {a : Nat} (ha : a < m.size) (i : Nat) (b : UInt8) :
    (m.setByte a b).byte i = if a = i then b else m.byte i := by
  have hp : 0 < pageSize := by decide
  have hmod : i % pageSize < pageSize := Nat.mod_lt _ hp
  have hap : a / pageSize < m.pages.size := by
    unfold size at ha
    exact Nat.div_lt_of_lt_mul (by rwa [Nat.mul_comm] at ha)
  unfold byte setByte
  simp only [Array.getD_eq_getD_getElem?]
  by_cases hpage : a / pageSize = i / pageSize
  · have hi : i / pageSize < m.pages.size := hpage ▸ hap
    rw [← hpage, Array.getElem?_eq_getElem (by simpa using hap), Array.getElem_modify,
      Array.getElem?_eq_getElem hap]
    simp only [Option.getD_some, if_true]
    rw [Page.byte_set _ _ _ _ hmod]
    have : a % pageSize = i % pageSize ↔ a = i := by
      constructor
      · intro h
        rw [← Nat.div_add_mod a pageSize, ← Nat.div_add_mod i pageSize, hpage, h]
      · rintro rfl
        rfl
    simp [this]
  · have hne : a ≠ i := by
      rintro rfl
      exact hpage rfl
    simp only [hne, if_false]
    by_cases hi : i / pageSize < m.pages.size
    · rw [Array.getElem?_eq_getElem (by simpa using hi), Array.getElem_modify,
        Array.getElem?_eq_getElem hi]
      simp [hpage]
    · rw [Array.getElem?_eq_none (by simpa using hi), Array.getElem?_eq_none (by simpa using hi)]

/-- The bytes from `a` on, without regard to the size. -/
def slice (m : Memory) (a n : Nat) : Bytes := (List.range n).map fun i => m.byte (a + i)

@[simp] theorem length_slice (m : Memory) (a n : Nat) : (m.slice a n).length = n := by
  simp [slice]

/-- The `n` bytes at `a`, if all of them are inside. -/
def read? (m : Memory) (a n : Nat) : Option Bytes :=
  if a + n ≤ m.size then some (m.slice a n) else none

def splice (m : Memory) (a : Nat) : Bytes → Memory
  | [] => m
  | b :: bs => (m.setByte a b).splice (a + 1) bs

@[simp] theorem size_splice (m : Memory) (a : Nat) (bs : Bytes) :
    (m.splice a bs).size = m.size := by
  induction bs generalizing m a with
  | nil => rfl
  | cons b bs ih => simp [splice, ih]

theorem byte_splice (m : Memory) (a : Nat) (bs : Bytes) (h : a + bs.length ≤ m.size) (i : Nat) :
    (m.splice a bs).byte i = if a ≤ i then bs.getD (i - a) (m.byte i) else m.byte i := by
  induction bs generalizing m a with
  | nil => simp [splice]
  | cons b bs ih =>
    simp only [List.length_cons] at h
    rw [splice, ih _ _ (by simp; omega), byte_setByte _ (by omega)]
    by_cases h1 : a = i
    · subst h1
      simp [show ¬ a + 1 ≤ a by omega]
    · by_cases h2 : a ≤ i
      · have h3 : a + 1 ≤ i := by omega
        have h4 : i - a = i - (a + 1) + 1 := by omega
        simp [h1, h2, h3, h4]
      · have h3 : ¬ a + 1 ≤ i := by omega
        simp [h1, h2, h3]

/-- Writes bytes at `a`, if all of them are inside. -/
def write? (m : Memory) (a : Nat) (bs : Bytes) : Option Memory :=
  if a + bs.length ≤ m.size then some (m.splice a bs) else none

/-- Adds pages of zeros, if the limit allows. -/
def grow? (m : Memory) (n : Nat) : Option Memory :=
  if m.pages.size + n ≤ m.limit then some { m with pages := m.pages ++ Array.replicate n none }
  else none

end Memory

end MoveCodec.Machine
