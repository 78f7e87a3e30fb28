import MoveCodec.Proofs.Machine.Heap

/-!
# Computations that keep to the heap

A decoder reads the wire wherever an offset points to, and writes only what it took from the heap.
So it traps or leaves everything else as it was, whatever the memory holds. The rules below pass this
on from the steps of a computation to the whole of it.
-/
namespace MoveCodec.Machine

open Compute List

/-- Heap and memory only grew, and nothing below `H` has changed. The host and the places in the call
data are as they were, and what was looked at is remembered. -/
structure Vm.Spares (H : Nat) (vm vm' : Vm) : Prop where
  top_le : vm.top.toNat ≤ vm'.top.toNat
  size_le : vm.memory.size ≤ vm'.memory.size
  limit_eq : vm'.memory.limit = vm.memory.limit
  byte_eq : ∀ i < H, vm.memory.byte i = vm'.memory.byte i
  host_eq : vm'.host = vm.host
  reader_eq : vm'.reader = vm.reader
  stop_eq : vm'.stop = vm.stop
  seen_le : vm.seen <:+ vm'.seen
  sane : vm'.Sane

section

variable {H n : Nat} {f : Nat → UInt8} {vm vm₁ vm₂ : Vm}

theorem Vm.Spares.refl (h : vm.Sane) : vm.Spares H vm :=
  ⟨le_rfl, le_rfl, rfl, fun _ _ => rfl, rfl, rfl, rfl, suffix_rfl, h⟩

theorem Vm.Spares.trans (h₁ : vm.Spares H vm₁) (h₂ : vm₁.Spares H vm₂) : vm.Spares H vm₂ where
  top_le := h₁.top_le.trans h₂.top_le
  size_le := h₁.size_le.trans h₂.size_le
  limit_eq := h₂.limit_eq.trans h₁.limit_eq
  byte_eq i hi := (h₁.byte_eq i hi).trans (h₂.byte_eq i hi)
  host_eq := h₂.host_eq.trans h₁.host_eq
  reader_eq := h₂.reader_eq.trans h₁.reader_eq
  stop_eq := h₂.stop_eq.trans h₁.stop_eq
  seen_le := h₁.seen_le.trans h₂.seen_le
  sane := h₂.sane

theorem Vm.Turns.spares (h : vm.Turns n f vm₁) (hf : ∀ i < H, vm.memory.byte i = f i)
    (hseen : vm.seen <:+ vm₁.seen) : vm.Spares H vm₁ where
  top_le := by rw [h.top_eq]; exact Nat.le_add_right _ _
  size_le := h.size_le
  limit_eq := h.limit_eq
  byte_eq i hi := by rw [h.byte_eq, hf i hi]
  host_eq := h.host_eq
  reader_eq := h.reader_eq
  stop_eq := h.stop_eq
  seen_le := hseen
  sane := h.sane

end

/-- Started with the end of the heap at or behind `H`, the computation traps, or it gives a result with
the property and spares what lies below `H`. -/
structure Tame {α : Type} (H : Nat) (m : Compute α) (P : α → Prop := fun _ => True) : Prop where
  trap_of_error : ∀ ⦃vm : Vm⦄ ⦃e : Halt⦄, vm.Sane → H ≤ vm.top.toNat → m.run vm = .error e →
    ∃ t, e = .trap t
  spares : ∀ ⦃vm : Vm⦄ ⦃x : α⦄ ⦃vm' : Vm⦄, vm.Sane → H ≤ vm.top.toNat → m.run vm = .ok (x, vm') →
    P x ∧ vm.Spares H vm'

section

variable {α β : Type} {H : Nat} {P : α → Prop} {Q : β → Prop} {next : α → Compute β} {m : Compute α}

theorem Tame.pure {x : α} (h : P x) : Tame H (Pure.pure x : Compute α) P where
  trap_of_error := by
    rintro vm e - - ⟨⟩
  spares := by
    rintro vm y vm' hs - ⟨⟩
    exact ⟨h, .refl hs⟩

/-- What comes behind a tame step decides. -/
theorem Tame.trap_of_bind {vm : Vm} {e : Halt} (hm : Tame H m P) (hs : vm.Sane)
    (hH : H ≤ vm.top.toNat)
    (hnext : ∀ x vm', P x → vm.Spares H vm' → (next x).run vm' = .error e → ∃ t, e = .trap t)
    (h : (m >>= next).run vm = .error e) : ∃ t, e = .trap t := by
  rw [run_bind] at h
  cases hrun : m.run vm with
  | error e' =>
    rw [hrun] at h
    cases h
    exact hm.trap_of_error hs hH hrun
  | ok r =>
    rw [hrun] at h
    obtain ⟨hx, hv⟩ := hm.spares hs hH hrun
    exact hnext r.1 r.2 hx hv h

theorem Tame.bind (hm : Tame H m P) (hnext : ∀ x, P x → Tame H (next x) Q) :
    Tame H (m >>= next) Q where
  trap_of_error vm e hs hH := hm.trap_of_bind hs hH fun x vm' hx hv =>
    (hnext x hx).trap_of_error hv.sane (hH.trans hv.top_le)
  spares := by
    intro vm y vm' hs hH h
    obtain ⟨x, vm₁, hrun, h⟩ := run_bind_eq_ok.mp h
    obtain ⟨hx, hv⟩ := hm.spares hs hH hrun
    obtain ⟨hy, hv'⟩ := (hnext x hx).spares hv.sane (hH.trans hv.top_le) h
    exact ⟨hy, hv.trans hv'⟩

/-- A first step whose result does not matter. -/
theorem Tame.then (hm : Tame H m P) (hnext : ∀ x, Tame H (next x) Q) : Tame H (m >>= next) Q :=
  hm.bind fun x _ => hnext x

theorem Tame.map (hm : Tame H m P) (c : α → β) : Tame H (c <$> m) := by
  rw [map_eq_pure_bind]
  exact hm.then fun x => .pure trivial

theorem tame_read (a n : Nat) : Tame H (Compute.read a n) fun bs => bs.length = n where
  trap_of_error := by
    intro vm e _ _ h
    simp only [Compute.read] at h
    split at h
    · cases h
    · cases h
      exact ⟨_, rfl⟩
  spares := by
    intro vm bs vm' hs _ h
    simp only [Compute.read, Memory.read?] at h
    split at h
    · rename_i hread
      cases h
      split at hread <;> cases hread
      exact ⟨by simp, .refl hs⟩
    · cases h

theorem tame_write {a : Nat} (bs : Bytes) (ha : H ≤ a) : Tame H (Compute.write a bs) where
  trap_of_error := by
    intro vm e _ _ h
    simp only [Compute.write] at h
    split at h
    · cases h
    · cases h
      exact ⟨_, rfl⟩
  spares := by
    intro vm x vm' hs _ h
    obtain ⟨hfit, hb⟩ := write_becomes hs h
    refine ⟨trivial, hb.spares (fun i hi => (patch_outside (.inl (by omega))).symm) ?_⟩
    simp only [Compute.write, if_pos hfit] at h
    cases h
    exact suffix_rfl

theorem tame_state : Tame H Compute.state where
  trap_of_error := by
    rintro vm e - - ⟨⟩
  spares := by
    rintro vm x vm' hs - ⟨⟩
    exact ⟨trivial, .refl hs⟩

theorem tame_look (l : Look) : Tame H (look l) where
  trap_of_error := by
    rintro vm e - - ⟨⟩
  spares := by
    rintro vm x vm' hs - ⟨⟩
    exact ⟨trivial, ⟨le_rfl, le_rfl, rfl, fun _ _ => rfl, rfl, rfl, rfl, suffix_cons l vm.seen,
      hs.1, hs.2, hs.3, hs.4⟩⟩

theorem tame_trapWhen (b : Bool) : Tame H (trapWhen b) fun _ => b = false where
  trap_of_error := by
    intro vm e _ _ h
    simp only [trapWhen] at h
    split at h
    · cases h
      exact ⟨_, rfl⟩
    · cases h
  spares := by
    intro vm x vm' hs _ h
    simp only [trapWhen] at h
    split at h
    · cases h
    · rename_i hb
      cases h
      exact ⟨by simpa using hb, .refl hs⟩

theorem tame_upTo {body : UInt32 → Compute Unit} {n : Nat} {i : UInt32}
    (h : ∀ k < n, Tame H (body (i + UInt32.ofNat k))) : Tame H (upTo body n i) := by
  induction n generalizing i with
  | zero => exact .pure trivial
  | succ n ih =>
    have h₀ := h 0 (Nat.succ_pos n)
    rw [show i + UInt32.ofNat 0 = i from UInt32.add_zero i] at h₀
    refine h₀.then fun _ => ih fun k hk => ?_
    rw [UInt32.add_assoc, UInt32.add_comm 1]
    have h₁ := h (k + 1) (Nat.succ_lt_succ hk)
    rwa [UInt32.ofNat_add] at h₁

end

theorem tame_grow {H : Nat} (n : UInt32) : Tame H (grow n) where
  trap_of_error := by
    intro vm e _ _ h
    simp only [grow] at h
    split at h
    · split at h <;> cases h
      exact ⟨_, rfl⟩
    · cases h
      exact ⟨_, rfl⟩
  spares := by
    intro vm x vm' hs _ h
    refine ⟨trivial, (grow_turns hs h).spares (fun _ _ => rfl) ?_⟩
    simp only [grow] at h
    split at h
    · split at h <;> cases h
      exact suffix_rfl
    · cases h

theorem tame_reserve {H : Nat} (next : UInt32) : Tame H (reserve next) := by
  refine tame_state.then fun vm => ?_
  dsimp only
  split
  · exact tame_grow _
  · exact .pure trivial

/-- A block that was allocated lies at or behind the old end of the heap. -/
theorem tame_allocate {H : Nat} (size : UInt32) :
    Tame H (allocate size) fun p => H ≤ p.toNat ∧ p.toNat + size.toNat < 4294967296 := by
  have hfirst : ∀ top, Tame H (trapWhen (top + size < top) >>= fun _ => reserve (top + size)) :=
    fun top => (tame_trapWhen _).bind fun _ _ => tame_reserve _
  constructor
  · intro vm e hs hH h
    rw [allocate, run_state_bind, ← bind_assoc, run_bind] at h
    split at h
    · cases h
    · rename_i herror
      cases h
      exact (hfirst _).trap_of_error hs hH herror
  · intro vm p vm' hs hH h
    obtain ⟨rfl, hb⟩ := allocate_becomes hs h
    have htop := hb.top_eq
    have hlt := vm'.top.toNat_lt
    refine ⟨⟨hH, by omega⟩, hb.spares (fun _ _ => rfl) ?_⟩
    rw [allocate, run_state_bind, ← bind_assoc] at h
    obtain ⟨_, vm₁, hrun, h⟩ := run_bind_eq_ok.mp h
    cases h
    exact ((hfirst _).spares hs hH hrun).2.seen_le

end MoveCodec.Machine
