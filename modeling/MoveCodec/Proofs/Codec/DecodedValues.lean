import MoveCodec.Proofs.Codec.CanonicalPack
import MoveCodec.Proofs.Codec.UnpackSpec

/-!
# Decoded values are well-formed

The function that decodes the parameters of a call either traps or gives a record of well-formed
values in blocks of its own, whatever the memory holds and wherever the call data is.
-/
namespace MoveCodec

open Machine Machine.Compute Bytes

/-! ## Forms of types -/

mutual

/-- The sizes of records inside values of the form, and the numbers of variants, can be written in
32 bits. -/
def Form.small : Form → Bool
  | .enum n => decide (n < UInt32.size)
  | .vector e => e.small
  | .struct fields => decide (fields.record < UInt32.size) && fields.small
  | _ => true

def Forms.small : Forms → Bool
  | .nil => true
  | .cons _ f fs => f.small && fs.small

end

mutual

/-- No field of a struct stands behind a reference. -/
theorem HasForm.compact {r : Registry} : ∀ {t : MoveType} {f : Form}, HasForm r t f →
    f.small = true → f.compact = true
  | _, .vector e, .vector h, hsmall => by
    rw [Form.small] at hsmall
    rw [Form.compact]
    exact HasForm.compact h hsmall
  | _, .struct fields, h, hsmall => by
    rw [Form.small, Bool.and_eq_true] at hsmall
    cases h with
    | struct _ _ _ hfields =>
      obtain ⟨hunboxed, hcompact⟩ := HaveForms.compact hfields hsmall.2
      rw [Form.compact, hunboxed, hsmall.1, hcompact]
      rfl
  | _, .enum n, _, hsmall => by
    rw [Form.small] at hsmall
    rwa [Form.compact]
  | _, .bool, _, _ | _, .int _, _, _ | _, .address, _, _ | _, .string, _, _
  | _, .bytes _, _, _ | _, .uid, _, _ | _, .id, _, _ => by
    simp [Form.compact]

theorem HaveForms.compact {r : Registry} : ∀ {ts : List MoveType} {fs : Forms}, HaveForms r ts fs →
    fs.small = true → fs.unboxed = true ∧ fs.compact = true
  | _, _, .nil, _ => ⟨rfl, rfl⟩
  | _, _, .cons hf hfs, hsmall => by
    rw [Forms.small, Bool.and_eq_true] at hsmall
    obtain ⟨hunboxed, hcompact⟩ := HaveForms.compact hfs hsmall.2
    rw [Forms.unboxed, Forms.compact, hunboxed, hcompact, HasForm.compact hf hsmall.1]
    exact ⟨rfl, rfl⟩

end

theorem Codec.TupleForms.compact {r : Registry} {ts : List MoveType} {fs : Forms}
    (h : TupleForms r ts fs) (hsmall : fs.small = true) : fs.compact = true := by
  induction h with
  | nil => rfl
  | value hf _ ih | ref hf _ ih =>
    rw [Forms.small, Bool.and_eq_true] at hsmall
    rw [Forms.compact, hf.compact hsmall.1, ih hsmall.2]
    rfl

namespace Codec

/-! ## Traps -/

theorem trap_of_unpackingParams {e : Halt} : ∀ (fs : Forms) (rec base offset : UInt32) {vm : Vm},
    fs.decodable = true → vm.Sane → (unpackingParams fs rec base offset).run vm = .error e →
    ∃ t, e = .trap t
  | .nil, _, _, _, _, _, _, h => by cases h
  | .cons boxed form fs, rec, base, offset, vm, hdecodable, hs, h => by
    rw [Forms.decodable, Bool.and_eq_true] at hdecodable
    refine (tame_unpacking form _ _ hdecodable.1).trap_of_bind hs (Nat.zero_le _)
      (fun v vm₁ _ hv₁ h => ?_) h
    have hs₁ : Vm.Sane { vm₁ with reader := vm₁.reader + form.headWord } :=
      ⟨hv₁.sane.1, hv₁.sane.2, hv₁.sane.3, hv₁.sane.4⟩
    exact (tame_storeParam boxed _ offset v (Nat.zero_le _)).trap_of_bind hs₁ (Nat.zero_le _)
      (fun _ _ _ hv₂ => trap_of_unpackingParams fs rec base _ hdecodable.2 hv₂.sane) h

theorem trap_of_unpackingTuple {fs : Forms} {base : UInt32} {vm : Vm} {e : Halt}
    (hdecodable : fs.decodable = true) (hs : vm.Sane)
    (h : (unpackingTuple fs base).run vm = .error e) : ∃ t, e = .trap t := by
  have hs' : Vm.Sane { vm with reader := base } := ⟨hs.1, hs.2, hs.3, hs.4⟩
  refine (tame_allocate _).trap_of_bind hs' (Nat.zero_le _) (fun rec vm₁ _ hv h => ?_) h
  rw [run_bind] at h
  split at h
  · cases h
  · rename_i hparams
    cases h
    exact trap_of_unpackingParams fs _ _ _ hdecodable hv.sane hparams

/-! ## Calls -/

/-- A call that decodes: it gives a record of well-formed values, in blocks that were allocated
during the call and do not overlap; or it traps. -/
def DecodesFresh (fs : Forms) (vm : Vm) (r : Return) : Prop :=
  (∃ (rec : UInt32) (vm' : Vm) (x : fs.Val) (bs : List Block), r = ⟨.ok [.i32 rec], vm'.store⟩ ∧
    fs.Holds true vm'.memory.byte rec.toNat x bs ∧ fs.Moderate x ∧ vm.Grows vm' ∧
    Fresh vm.top.toNat vm'.top.toNat (⟨rec.toNat, fs.record⟩ :: bs)) ∨
  ∃ t, r.outcome = .error (.trap t)

theorem unpackValues_wellFormed {c : Context} (hc : c.registry.Made) {ts : List MoveType}
    (hts : ∀ t ∈ ts, ByValue c.registry t) (m : Built c (unpackValues c ts)) :
    ∃ fs, TupleForms c.registry ts fs ∧ (fs.small = true → fs.record < UInt32.size →
      ∀ (vm : Vm) (base : UInt32), vm.Sane →
        ∃ n, ∀ fuel, n ≤ fuel → DecodesFresh fs vm (m.call fuel [.i32 base] vm.store)) := by
  obtain ⟨fs, hfs, hdecodable, hcomputes⟩ :=
    m.serves hc (makes_unpackValues hc (fun _ h => h) ts) hts
  refine ⟨fs, hfs, fun hsmall hsize vm base hs => ?_⟩
  obtain ⟨n, hn⟩ := m.call_eq (hcomputes base) vm
  refine ⟨n, fun fuel hfuel => ?_⟩
  obtain ⟨hok, herror⟩ := hn fuel hfuel
  cases hrun : (unpackingTuple fs base).run vm with
  | ok r =>
    obtain ⟨rec, vm'⟩ := r
    obtain ⟨-, x, bs, hx, hmoderate, hgrows, hfresh⟩ :=
      unpackingTuple_builds (hfs.compact hsmall) hsize hs hrun
    exact .inl ⟨rec, vm', x, bs, hok _ _ hrun, hx, hmoderate, hgrows, hfresh⟩
  | error e =>
    obtain ⟨t, rfl⟩ := trap_of_unpackingTuple hdecodable hs hrun
    exact .inr ⟨t, herror _ hrun⟩

/-- Call data for the types of the sample: the number 7 and a vector that says it holds the
number 5. -/
def sampleCall : Bytes :=
  ofNatBE 32 7 ++ ofNatBE 32 64 ++ ofNatBE 32 1 ++ ofNatBE 32 5

def sampleUnpacker : Built { registry := {} } (unpackValues { registry := {} } sampleTypes) :=
  (Built.build? _ _ "sample" {} {}).get (by decide +kernel)

theorem length_sampleCall : sampleCall.length = 128 := by simp [sampleCall]

theorem byValue_sampleTypes : ∀ t ∈ sampleTypes, ByValue {} t := by
  simp only [sampleTypes, List.forall_mem_cons]
  exact ⟨⟨by decide, by decide, by decide⟩, ⟨by decide, by decide, by decide⟩, by simp⟩

theorem unpackValues_wellFormed_sample :
    ∃ m : Built { registry := {} } (unpackValues { registry := {} } sampleTypes),
      ∃ n, ∀ fuel, n ≤ fuel →
        DecodesFresh (.cons false (.int .w64) (.cons false (.vector (.int .w128)) .nil))
          (.loaded sampleCall {}) (m.call fuel [.i32 320] (Vm.loaded sampleCall {}).store) := by
  obtain ⟨fs, hfs, h⟩ := unpackValues_wellFormed .empty byValue_sampleTypes sampleUnpacker
  obtain rfl := forms_of_sampleTypes hfs
  have hlength : sampleCall.length ≤ 65000 := by simp [length_sampleCall]
  exact ⟨sampleUnpacker, h (by decide) (by decide) _ 320 (Vm.sane_loaded {} hlength)⟩

end Codec

end MoveCodec
