import MoveCodec.Types.ModuleId

/-!
# Move types

`MoveType` is the closed set of value types. Structs and enums are references to definitions, which
are kept elsewhere, with their type arguments.
-/
namespace MoveCodec

inductive IntWidth where
  | w8
  | w16
  | w32
  | w64
  | w128
  | w256
  deriving DecidableEq, Repr

namespace IntWidth

def bytes : IntWidth → Nat
  | .w8 => 1
  | .w16 => 2
  | .w32 => 4
  | .w64 => 8
  | .w128 => 16
  | .w256 => 32

def bits (w : IntWidth) : Nat := 8 * w.bytes

def name : IntWidth → String
  | .w8 => "u8"
  | .w16 => "u16"
  | .w32 => "u32"
  | .w64 => "u64"
  | .w128 => "u128"
  | .w256 => "u256"

end IntWidth

/-- A definition: the module it stands in and its index there. -/
structure DefId where
  home : ModuleId
  index : UInt16
  deriving DecidableEq

/-- A definition without its name. -/
def DefId.render (id : DefId) : String := id.home.render ++ "::#" ++ toString id.index.toNat

inductive MoveType where
  | bool
  | int (width : IntWidth)
  | address
  | signer
  | vector (elem : MoveType)
  | struct (id : DefId) (args : List MoveType)
  | enum (id : DefId) (args : List MoveType)
  | ref (mutable : Bool) (target : MoveType)
  | param (index : UInt16)

namespace MoveType

abbrev u8 : MoveType := .int .w8
abbrev u64 : MoveType := .int .w64

def kindCode : MoveType → Nat
  | .bool => 0
  | .int .w8 => 1
  | .int .w16 => 2
  | .int .w32 => 3
  | .int .w64 => 4
  | .int .w128 => 5
  | .int .w256 => 6
  | .address => 7
  | .signer => 8
  | .vector _ => 9
  | .struct .. => 10
  | .enum .. => 11
  | .ref .. => 12
  | .param _ => 13

def kindNames : List String :=
  ["bool", "u8", "u16", "u32", "u64", "u128", "u256", "address", "signer", "vector", "struct",
   "enum", "ref", "type_param"]

/-- The name of a kind; numbers that no kind has are shown as such. -/
def kindName (code : Nat) : String :=
  (kindNames[code]?).getD ("kind(" ++ toString code ++ ")")

def kind (t : MoveType) : String := kindName t.kindCode

/-- A list of type arguments in angle brackets; nothing for the empty list. -/
def bracketed (args : List String) : String :=
  if args.isEmpty then "" else "<" ++ ",".intercalate args ++ ">"

mutual

/-- The text of a type; definitions are shown by module and index. -/
def render : MoveType → String
  | .vector elem => "vector<" ++ render elem ++ ">"
  | .struct id args => id.render ++ bracketed (renderAll args)
  | .enum id args => id.render ++ bracketed (renderAll args)
  | .ref mutable target => (if mutable then "&mut " else "&") ++ render target
  | .param i => "T" ++ toString i.toNat
  | .bool => "bool"
  | .int w => w.name
  | .address => "address"
  | .signer => "signer"

def renderAll : List MoveType → List String
  | [] => []
  | t :: ts => render t :: renderAll ts

end

@[simp] theorem renderAll_eq (ts : List MoveType) : renderAll ts = ts.map render := by
  induction ts with
  | nil => rfl
  | cons t ts ih => simp [renderAll, ih]

mutual

def beq : MoveType → MoveType → Bool
  | .bool, .bool => true
  | .int v, .int w => v == w
  | .address, .address => true
  | .signer, .signer => true
  | .vector a, .vector b => beq a b
  | .struct i as, .struct j bs => i == j && beqAll as bs
  | .enum i as, .enum j bs => i == j && beqAll as bs
  | .ref m a, .ref n b => m == n && beq a b
  | .param i, .param j => i == j
  | _, _ => false

def beqAll : List MoveType → List MoveType → Bool
  | [], [] => true
  | a :: as, b :: bs => beq a b && beqAll as bs
  | _, _ => false

end

/-- Induction with the hypothesis for every type argument. -/
theorem rec_args {P : MoveType → Prop} (bool : P .bool) (int : ∀ w, P (.int w))
    (address : P .address) (signer : P .signer) (vector : ∀ e, P e → P (.vector e))
    (struct : ∀ id args, (∀ a ∈ args, P a) → P (.struct id args))
    (enum : ∀ id args, (∀ a ∈ args, P a) → P (.enum id args))
    (ref : ∀ m t, P t → P (.ref m t)) (param : ∀ i, P (.param i)) (t : MoveType) : P t :=
  @MoveType.rec P (fun args => ∀ a ∈ args, P a)
    bool int address signer vector struct enum ref param (by simp)
    (fun _ _ hh ht => by simpa using ⟨hh, ht⟩) t

theorem beqAll_iff {as bs : List MoveType} (h : ∀ a ∈ as, ∀ b, beq a b = true ↔ a = b) :
    beqAll as bs = true ↔ as = bs := by
  induction as generalizing bs with
  | nil => cases bs <;> simp [beqAll]
  | cons a as ih =>
    cases bs with
    | nil => simp [beqAll]
    | cons b bs =>
      have h1 := h a (by simp) b
      have h2 : beqAll as bs = true ↔ as = bs := ih fun x hx => h x (by simp [hx])
      simp [beqAll, h1, h2]

theorem beq_iff (a b : MoveType) : beq a b = true ↔ a = b := by
  induction a using rec_args generalizing b with
  | struct id args ih => cases b <;> simp [beq, beqAll_iff ih]
  | enum id args ih => cases b <;> simp [beq, beqAll_iff ih]
  | vector e ih => cases b <;> simp [beq, ih]
  | ref m t ih => cases b <;> simp [beq, ih]
  | _ => cases b <;> simp [beq]

instance : DecidableEq MoveType := fun a b =>
  decidable_of_iff (beq a b = true) (beq_iff a b)

def width? : MoveType → Option IntWidth
  | .int w => some w
  | _ => none

/-- Byte width of an integer type; 0 for the others. -/
def integerBytes (t : MoveType) : Nat := (t.width?.map IntWidth.bytes).getD 0

/-- Values that are held in registers rather than behind a pointer. -/
def isStackValue : MoveType → Bool
  | .bool | .int .w8 | .int .w16 | .int .w32 | .int .w64 => true
  | _ => false

/-- Bytes of a value in a local, a record slot or a vector element: the value itself or a pointer
to it. -/
def stackSize : MoveType → Except Error UInt32
  | .int .w64 => .ok 8
  | .param i => .error (.typeParameter .types [] i.toNat)
  | _ => .ok 4

/-- Strips one reference; a reference to a reference is refused. -/
def deref : MoveType → Except Error MoveType
  | .ref m (.ref n t) => .error (.refInsideRef .types [] (render (.ref m (.ref n t))))
  | .ref _ t => .ok t
  | t => .ok t

end MoveType

end MoveCodec
