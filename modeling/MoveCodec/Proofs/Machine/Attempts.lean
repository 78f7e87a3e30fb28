import MoveCodec.Proofs.Machine.Tame

/-!
# Runs that trap for want of space

Code for a value takes as many bytes from the heap as the value needs. It comes to its end, unless
an allocation on the way fails; and then the heap had no space for that many bytes.
-/
namespace MoveCodec.Machine

open Compute

/-- The computation takes `n` bytes from the heap and ends as `P` says; or it traps, and then there
is no space for `n` bytes. -/
def Tries {α : Type} (m : Compute α) (vm : Vm) (n : Nat) (P : α → Vm → Prop) : Prop :=
  (∃ x vm', m.run vm = .ok (x, vm') ∧ vm'.top.toNat = vm.top.toNat + n ∧
    (vm.space ≤ vm'.space ∨ vm.space < vm'.top.toNat) ∧ P x vm') ∨
  ((∃ t, m.run vm = .error (.trap t)) ∧ vm.space < vm.top.toNat + n)

section

variable {α β : Type} {m : Compute α} {next : α → Compute β} {vm vm₁ : Vm} {n k : Nat}
  {P P' : α → Vm → Prop} {Q : β → Vm → Prop} {x : α}

theorem Tries.pure (h : P x vm) : Tries (Pure.pure x) vm 0 P :=
  .inl ⟨x, vm, rfl, rfl, .inl le_rfl, h⟩

theorem Tries.bind (hm : Tries m vm n P)
    (hnext : ∀ x vm', m.run vm = .ok (x, vm') → P x vm' → Tries (next x) vm' k Q) :
    Tries (m >>= next) vm (n + k) Q := by
  rcases hm with ⟨x, vm', hrun, htop, hspace, hx⟩ | ⟨⟨t, hrun⟩, hspace⟩
  · rcases hnext x vm' hrun hx with ⟨y, vm'', hrun', htop', hspace', hy⟩ | ⟨⟨t, hrun'⟩, hspace'⟩
    · exact .inl ⟨y, vm'', by rw [run_bind_ok hrun, hrun'], by omega,
        Vm.space_le_trans (by omega) hspace hspace', hy⟩
    · exact .inr ⟨⟨t, by rw [run_bind_ok hrun, hrun']⟩, by omega⟩
  · exact .inr ⟨⟨t, run_bind_error hrun⟩, by omega⟩

/-- What was run before took nothing from the heap. -/
theorem Tries.then (hm : Tries m vm 0 fun y vm' => y = x ∧ vm' = vm₁)
    (hnext : Tries (next x) vm₁ k Q) : Tries (m >>= next) vm k Q := by
  rw [← Nat.zero_add k]
  refine hm.bind fun y vm' _ hy => ?_
  obtain ⟨rfl, rfl⟩ := hy
  exact hnext

/-- A first step that leaves the heap as it is. -/
theorem Tries.step (h : m.run vm = .ok (x, vm₁)) (htop : vm₁.top = vm.top)
    (hspace : vm.space ≤ vm₁.space) (hnext : Tries (next x) vm₁ k Q) : Tries (m >>= next) vm k Q :=
  .then (.inl ⟨x, vm₁, h, by rw [htop, Nat.add_zero], .inl hspace, rfl, rfl⟩) hnext

/-- A first step that takes nothing from the heap. -/
theorem Tries.becomes {f : Nat → UInt8} (h : m.run vm = .ok (x, vm₁)) (hb : vm.Becomes 0 f vm₁)
    (hnext : Tries (next x) vm₁ k Q) : Tries (m >>= next) vm k Q :=
  .then (.inl ⟨x, vm₁, h, hb.top_eq, hb.space_le, rfl, rfl⟩) hnext

theorem Tries.update {f : Vm → Vm} {next : Unit → Compute β} (htop : (f vm).top = vm.top)
    (hspace : vm.space ≤ (f vm).space) (hnext : Tries (next ()) (f vm) k Q) :
    Tries (Compute.update f >>= next) vm k Q :=
  .step (show (Compute.update f).run vm = .ok ((), f vm) from rfl) htop hspace hnext

theorem Tries.look {l : Look} {next : Unit → Compute β}
    (hnext : Tries (next ()) { vm with seen := l :: vm.seen } k Q) :
    Tries (Compute.look l >>= next) vm k Q :=
  .update (f := fun vm => { vm with seen := l :: vm.seen }) rfl le_rfl hnext

theorem Tries.mono (h : Tries m vm n P)
    (hP : ∀ x vm', m.run vm = .ok (x, vm') → P x vm' → P' x vm') : Tries m vm n P' := by
  rcases h with ⟨x, vm', hrun, htop, hspace, hx⟩ | h
  · exact .inl ⟨x, vm', hrun, htop, hspace, hP x vm' hrun hx⟩
  · exact .inr h

theorem Tries.map {c : α → β} (h : Tries m vm n fun x => Q (c x)) : Tries (c <$> m) vm n Q := by
  rw [map_eq_pure_bind]
  exact h.bind (k := 0) fun x vm' _ hx => .pure hx

theorem tries_allocate (hs : vm.Sane) (size : UInt32) :
    Tries (allocate size) vm size.toNat fun _ _ => True := by
  rcases allocate_ends hs size with ⟨-, vm', hrun, -⟩ | ⟨hrefuses, hrun⟩
  · obtain ⟨-, hb⟩ := allocate_becomes hs hrun
    exact .inl ⟨_, _, hrun, hb.top_eq, hb.space_le, trivial⟩
  · exact .inr ⟨⟨_, hrun⟩, hrefuses.space_lt hs⟩

/-- A write below the end of the heap. -/
theorem Tries.write_step {a : Nat} {bs : Bytes} {next : Unit → Compute β} (hs : vm.Sane)
    (hfit : a + bs.length ≤ vm.top.toNat)
    (hnext : ∀ vm₁, (write a bs).run vm = .ok ((), vm₁) →
      vm.Becomes 0 (patch vm.memory.byte a bs) vm₁ → Tries (next ()) vm₁ k Q) :
    Tries (write a bs >>= next) vm k Q := by
  obtain ⟨vm₁, hrun, hb⟩ := runs_write hs (hfit.trans hs.top_le)
  exact .becomes hrun hb (hnext vm₁ hrun hb)

end

/-- The computation gives `x`, takes `n` bytes of the heap and leaves memory with contents `f`; or
it traps for want of space. -/
def Attempts {α : Type} (m : Compute α) (vm : Vm) (x : α) (n : Nat) (f : Nat → UInt8) : Prop :=
  Tries m vm n fun y vm' => y = x ∧ vm.Becomes n f vm'

section

variable {α β : Type} {vm : Vm} {n k : Nat} {f g : Nat → UInt8} {m : Compute α} {x : α}
  {next : α → Compute β}

theorem Runs.attempts (h : Runs m vm x n f) : Attempts m vm x n f := by
  obtain ⟨vm', hrun, hb⟩ := h
  exact .inl ⟨x, vm', hrun, hb.top_eq, hb.space_le, rfl, hb⟩

theorem Attempts.bind {y : β} (h : Attempts m vm x n f)
    (hnext : ∀ vm', vm.Becomes n f vm' → Attempts (next x) vm' y k g) :
    Attempts (m >>= next) vm y (n + k) g := by
  refine Tries.bind h fun x' vm₁ _ hx => ?_
  obtain ⟨rfl, hb₁⟩ := hx
  exact (hnext vm₁ hb₁).mono fun y' vm₂ _ ⟨hy, hb₂⟩ => ⟨hy, hb₁.trans hb₂⟩

/-- A first step that takes nothing from the heap. -/
theorem Attempts.bind₀ {y : β} (h : Runs m vm x 0 f)
    (hnext : ∀ vm', vm.Becomes 0 f vm' → Attempts (next x) vm' y k g) :
    Attempts (m >>= next) vm y k g := by
  have := h.attempts.bind hnext
  rwa [Nat.zero_add] at this

theorem Attempts.of_run_eq {m' : Compute α} (h : m.run vm = m'.run vm) (hm : Attempts m' vm x n f) :
    Attempts m vm x n f := by
  rw [Attempts, Tries, h]
  exact hm

theorem attempts_allocate (hs : vm.Sane) (size : UInt32) :
    Attempts (allocate size) vm vm.top size.toNat vm.memory.byte :=
  (tries_allocate hs size).mono fun _ _ hrun _ => allocate_becomes hs hrun

end

/-- The computation ends as `P` says. If it is known how many bytes it takes from the heap, it comes
to its end or there is no space for them. -/
structure Works {α : Type} (m : Compute α) (vm : Vm) (n : Option Nat) (P : α → Vm → Prop) :
    Prop where
  ends : ∀ ⦃x : α⦄ ⦃vm' : Vm⦄, m.run vm = .ok (x, vm') → P x vm'
  tries : ∀ k ∈ n, Tries m vm k fun _ _ => True

section

variable {α β : Type} {m : Compute α} {next : α → Compute β} {vm vm₁ : Vm} {n k l : Option Nat}
  {P P' : α → Vm → Prop} {Q : β → Vm → Prop}

theorem Tries.works {a : Nat} (h : Tries m vm a P) : Works m vm (some a) P where
  ends x vm' hrun := by
    rcases h with ⟨y, vm'', hrun', -, -, hy⟩ | ⟨⟨t, hrun'⟩, -⟩
    · cases hrun.symm.trans hrun'
      exact hy
    · cases hrun.symm.trans hrun'
  tries := by
    rintro _ ⟨⟩
    exact h.mono fun _ _ _ _ => trivial

theorem Works.pure {x : α} (h : P x vm) (hn : ∀ a ∈ n, a = 0) : Works (Pure.pure x) vm n P where
  ends := by
    rintro _ _ ⟨⟩
    exact h
  tries a ha := by
    cases hn a ha
    exact .pure trivial

theorem Works.bind (hm : Works m vm n P)
    (hnext : ∀ x vm', m.run vm = .ok (x, vm') → P x vm' → Works (next x) vm' k Q)
    (hl : ∀ j ∈ l, ∃ a ∈ n, ∃ b ∈ k, j = a + b) : Works (m >>= next) vm l Q where
  ends y vm' h := by
    obtain ⟨x, vm₁, hrun, h⟩ := run_bind_eq_ok.mp h
    exact (hnext x vm₁ hrun (hm.ends hrun)).ends h
  tries j hj := by
    obtain ⟨a, ha, b, hb, rfl⟩ := hl j hj
    exact (hm.tries a ha).bind fun x vm₁ hrun _ => (hnext x vm₁ hrun (hm.ends hrun)).tries b hb

/-- A first step that takes nothing from the heap. -/
theorem Works.then (hm : Works m vm n P)
    (hnext : ∀ x vm', m.run vm = .ok (x, vm') → P x vm' → Works (next x) vm' k Q)
    (hn : ∀ j ∈ k, 0 ∈ n) : Works (m >>= next) vm k Q :=
  hm.bind hnext fun j hj => ⟨0, hn j hj, j, hj, (Nat.zero_add j).symm⟩

theorem Works.mono (h : Works m vm n P) (hP : ∀ x vm', P x vm' → P' x vm') : Works m vm n P' :=
  ⟨fun x vm' hrun => hP x vm' (h.ends hrun), h.tries⟩

theorem Works.map {c : α → β} (h : Works m vm n fun x => Q (c x)) : Works (c <$> m) vm n Q := by
  rw [map_eq_pure_bind]
  exact h.bind (fun x vm' _ hx => .pure hx (n := some 0) (by simp)) fun j hj => ⟨j, hj, 0, rfl, rfl⟩

theorem Works.look {l : Look} {next : Unit → Compute β}
    (h : Works (next ()) { vm with seen := l :: vm.seen } k Q) :
    Works (Compute.look l >>= next) vm k Q :=
  ⟨fun _ _ hrun => h.ends hrun, fun a ha => .look (h.tries a ha)⟩

theorem works_write {a : Nat} {bs : Bytes} (hs : vm.Sane) (hfit : a + bs.length ≤ vm.top.toNat) :
    Works (write a bs) vm (some 0) fun _ vm' => vm.Becomes 0 (patch vm.memory.byte a bs) vm' := by
  obtain ⟨vm₁, hrun, hb⟩ := runs_write hs (hfit.trans hs.top_le)
  exact Tries.works (.inl ⟨_, vm₁, hrun, hb.top_eq, hb.space_le, hb⟩)

end

end MoveCodec.Machine
