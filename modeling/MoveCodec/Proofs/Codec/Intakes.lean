import MoveCodec.Proofs.Storage.ObjectCode

/-!
# Where parameters come from

The values of a call's record come from the transaction, from storage and from the call data. What
the function that collects them does, as a computation by recursion on a plan that names the source
of each. The reader moves over the heads of those that the caller passes.
-/
namespace MoveCodec

open Machine Machine.Compute

/-- Where a parameter comes from. -/
inductive Intake where
  /-- The transaction origin. -/
  | signer
  /-- The transaction context. -/
  | context
  /-- Storage, under the identifier in the call data. -/
  | object (fields : Forms)
  /-- The call data. -/
  | value (form : Form)

namespace Intake

/-- The parameter is held in a register of 64 bits. -/
def wide : Intake → Bool
  | .value form => form.wide
  | _ => false

/-- The virtual machine supplies the parameter. -/
def injected : Intake → Bool
  | .signer | .context => true
  | _ => false

/-- Bytes among the heads of the call data, as the code computes them. -/
def headWord : Intake → UInt32
  | .signer | .context => 0
  | .object _ => 32
  | .value form => form.headWord

/-- Bytes of the parameter in the record. -/
def place (boxed : Bool) (k : Intake) : Nat := if boxed then 4 else slotSize k.wide

end Intake

/-- The sources of the parameters of a function, and whether they are references. -/
abbrev Plan := List (Bool × Intake)

namespace Plan

def record : Plan → Nat
  | [] => 0
  | (boxed, k) :: ks => k.place boxed + record ks

/-- Offsets of the parameters in the record from `start` on. -/
def places : Plan → (start : UInt32) → List UInt32
  | [], _ => []
  | (boxed, k) :: ks, start => start :: places ks (start + UInt32.ofNat (k.place boxed))

/-- The parameters that are read from the call data as values. -/
def ofForms : Forms → Plan
  | .nil => []
  | .cons boxed form fs => (boxed, .value form) :: ofForms fs

end Plan

namespace Codec

/-- The transaction origin in a new word, with zeros in front. -/
def paddedOrigin : Compute UInt32 := do
  let p ← allocate 32
  zero p 12
  host .txOrigin [p + 12]
  return p

/-- Gets a parameter. An object is looked for under the identifier at the reader. -/
def taking (base : UInt32) : Intake → Compute Value
  | .signer => .i32 <$> paddedOrigin
  | .context => pure (.i32 Prelude.zeroWord)
  | .object fields => do
    let r := (← state).reader
    look ⟨r.toNat, 32, false⟩
    let p ← Storage.loading fields r
    update fun vm => { vm with reader := vm.reader + 32 }
    return .i32 p
  | .value form => do
    let x ← unpacking form (← state).reader base
    update fun vm => { vm with reader := vm.reader + form.headWord }
    return x

/-- Puts one parameter after another into the record. -/
def takingAll : (plan : Plan) → (rec base offset : UInt32) → Compute Unit
  | [], _, _, _ => pure ()
  | (boxed, k) :: ks, rec, base, offset => do
    let x ← taking base k
    storeParam boxed k.wide rec offset x
    takingAll ks rec base (offset + UInt32.ofNat (k.place boxed))

/-- Gets the parameters of a call whose data is at `base` into a new record. -/
def takingTuple (plan : Plan) (base : UInt32) : Compute UInt32 := do
  update fun vm => { vm with reader := base }
  let rec' ← allocate (UInt32.ofNat plan.record)
  takingAll plan rec' base 0
  return rec'

theorem taking_wide (base : UInt32) (k : Intake) :
    Gives (taking base k) fun v => v.wide = k.wide := by
  cases k with
  | signer => exact .map fun _ => rfl
  | context => exact .pure rfl
  | object fields => exact .bind fun _ => .bind fun _ => .bind fun _ => .bind fun _ => .pure rfl
  | value form =>
    intro vm v vm' h
    rw [taking, run_state_bind] at h
    obtain ⟨x, vm₁, hx, h⟩ := run_bind_eq_ok.mp h
    rw [run_update_bind] at h
    cases h
    exact unpacking_wide form _ _ _ _ _ hx

/-! ## Values alone -/

theorem record_ofForms (fs : Forms) : (Plan.ofForms fs).record = fs.record := by
  cases fs with
  | nil => rfl
  | cons boxed form fs =>
    rw [Plan.ofForms, Plan.record, Forms.record, record_ofForms fs]
    rfl

theorem takingAll_ofForms (fs : Forms) (rec base offset : UInt32) :
    takingAll (.ofForms fs) rec base offset = unpackingParams fs rec base offset := by
  cases fs with
  | nil => rfl
  | cons boxed form fs =>
    simp only [Plan.ofForms, takingAll, taking, unpackingParams, bind_assoc, pure_bind,
      takingAll_ofForms fs]
    rfl

theorem takingTuple_ofForms (fs : Forms) (base : UInt32) :
    takingTuple (.ofForms fs) base = unpackingTuple fs base := by
  simp only [takingTuple, unpackingTuple, takingAll_ofForms, record_ofForms]

end Codec

end MoveCodec
