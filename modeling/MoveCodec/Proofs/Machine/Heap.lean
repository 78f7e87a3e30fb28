import MoveCodec.Proofs.Prelude.Routines

/-!
# Contents of memory

What a memory holds is a function from addresses to bytes. A write patches it, growth leaves it as
it is. `Vm.Becomes` says how a state follows from another: so many more bytes of the heap are in
use, and memory has these contents.
-/
namespace MoveCodec.Machine

open List

variable {bs : Bytes} {a i : Nat} {x : Unit}

/-! ## Patches and views -/

/-- Contents with `bs` from `a` on. -/
def patch (f : Nat → UInt8) (a : Nat) (bs : Bytes) : Nat → UInt8 := fun i =>
  if a ≤ i then bs.getD (i - a) (f i) else f i

/-- The `n` bytes from `a` on. -/
def view (f : Nat → UInt8) (a n : Nat) : Bytes := (List.range n).map fun i => f (a + i)

section

variable {f g : Nat → UInt8} {a b n m : Nat} {xs ys : Bytes}

@[simp] theorem patch_nil : patch f a [] = f := by
  funext i
  simp [patch]

theorem patch_outside (h : i < a ∨ a + xs.length ≤ i) : patch f a xs i = f i := by
  simp only [patch]
  split
  · rw [getD_eq_default _ _ (by omega)]
  · rfl

theorem patch_inside (h : a ≤ i) (hlt : i - a < xs.length) : patch f a xs i = xs[i - a] := by
  simp [patch, h, hlt]

theorem patch_append : patch f a (xs ++ ys) = patch (patch f a xs) (a + xs.length) ys := by
  funext i
  by_cases h1 : i < a
  · rw [patch_outside (.inl h1), patch_outside (.inl (by omega)), patch_outside (.inl h1)]
  · by_cases h2 : i - a < xs.length
    · rw [patch_inside (by omega) (by simp; omega), patch_outside (.inl (by omega)),
        patch_inside (by omega) h2, getElem_append_left h2]
    · by_cases h3 : i - a < (xs ++ ys).length
      · rw [length_append] at h3
        rw [patch_inside (by omega) (by simpa using h3), patch_inside (by omega) (by omega),
          getElem_append_right (by omega)]
        congr 1
        omega
      · rw [length_append] at h3
        rw [patch_outside (.inr (by simp; omega)), patch_outside (.inr (by omega)),
          patch_outside (.inr (by omega))]

theorem patch_comm (h : a + xs.length ≤ b ∨ b + ys.length ≤ a) :
    patch (patch f a xs) b ys = patch (patch f b ys) a xs := by
  funext i
  by_cases ha : a ≤ i ∧ i - a < xs.length
  · rw [patch_outside (by omega), patch_inside ha.1 ha.2, patch_inside ha.1 ha.2]
  · by_cases hb : b ≤ i ∧ i - b < ys.length
    · rw [patch_inside hb.1 hb.2, patch_outside (f := patch f b ys) (by omega),
        patch_inside hb.1 hb.2]
    · rw [patch_outside (by omega), patch_outside (by omega), patch_outside (by omega),
        patch_outside (by omega)]

theorem patch_patch (h : xs.length ≤ ys.length) : patch (patch f a xs) a ys = patch f a ys := by
  funext i
  by_cases hi : a ≤ i ∧ i - a < ys.length
  · rw [patch_inside hi.1 hi.2, patch_inside hi.1 hi.2]
  · rw [patch_outside (by omega), patch_outside (by omega), patch_outside (by omega)]

@[simp] theorem length_view : (view f a n).length = n := by simp [view]

@[simp] theorem view_zero : view f a 0 = [] := rfl

theorem getElem_view (h : i < (view f a n).length) : (view f a n)[i] = f (a + i) := by
  simp [view]

theorem view_congr (h : ∀ i, i < n → f (a + i) = g (b + i)) : view f a n = view g b n := by
  apply ext_getElem (by simp)
  intro i h1 h2
  rw [getElem_view, getElem_view]
  exact h i (by simpa using h1)

theorem view_add : view f a (m + n) = view f a m ++ view f (a + m) n := by
  simp [view, range_add, Nat.add_assoc, Function.comp_def]

theorem view_patch : view (patch f a xs) a xs.length = xs := by
  apply ext_getElem (by simp)
  intro i h1 h2
  rw [getElem_view, patch_inside (by omega) (by omega)]
  simp

theorem view_patch_of_length (h : xs.length = n) : view (patch f a xs) a n = xs := by
  subst h
  exact view_patch

theorem view_patch_outside (h : a + n ≤ b ∨ b + xs.length ≤ a) :
    view (patch f b xs) a n = view f a n :=
  view_congr fun i hi => patch_outside (by omega)

/-- Writing what stands in a place already changes nothing. -/
theorem patch_view : patch f a (view f a n) = f := by
  funext i
  by_cases hi : a ≤ i ∧ i - a < (view f a n).length
  · rw [patch_inside hi.1 hi.2, getElem_view, Nat.add_sub_cancel' hi.1]
  · exact patch_outside (by omega)

end

theorem Memory.byte_splice_eq_patch (m : Memory) (h : a + bs.length ≤ m.size) :
    (m.splice a bs).byte = patch m.byte a bs := by
  funext i
  rw [m.byte_splice a bs h, patch]

theorem Memory.byte_grow {m m' : Memory} {n : Nat} (h : m.grow? n = some m') :
    m'.byte = m.byte := by
  simp only [Memory.grow?] at h
  split at h
  · cases h
    funext i
    simp only [Memory.byte, Array.getD_eq_getD_getElem?]
    by_cases hi : i / pageSize < m.pages.size
    · rw [Array.getElem?_append_left hi]
    · have hnone : m.pages[i / pageSize]? = none := Array.getElem?_eq_none (by omega)
      rw [Array.getElem?_append_right (by omega), hnone]
      simp only [Array.getElem?_replicate]
      split <;> rfl
  · simp at h

/-! ## States -/

/-- What holds of every state of an instance: the heap starts behind the reserved words and lies
inside the memory, which is within its limit and no larger than addresses reach. -/
structure Vm.Sane (vm : Vm) : Prop where
  start_le : Prelude.heapStart ≤ vm.top
  top_le : vm.top.toNat ≤ vm.memory.size
  pages_le : vm.memory.pages.size ≤ vm.memory.limit
  limit_le : vm.memory.limit ≤ maxPages

/-- The bytes that memory can grow to. -/
def Vm.room (vm : Vm) : Nat := vm.memory.limit * 65536

/-- How far the heap is sure to grow. The allocator cannot tell a memory of 4 GiB from an empty one,
and refuses small requests once memory has that size. -/
def Vm.space (vm : Vm) : Nat :=
  if vm.memory.pages.size ≤ 65535 then min vm.memory.limit 65535 * 65536 else 0

/-- The state with `n` more bytes below the end of the heap; memory has the contents `f`. -/
structure Vm.Turns (vm : Vm) (n : Nat) (f : Nat → UInt8) (vm' : Vm) : Prop where
  top_eq : vm'.top.toNat = vm.top.toNat + n
  byte_eq : vm'.memory.byte = f
  size_le : vm.memory.size ≤ vm'.memory.size
  limit_eq : vm'.memory.limit = vm.memory.limit
  reader_eq : vm'.reader = vm.reader
  stop_eq : vm'.stop = vm.stop
  host_eq : vm'.host = vm.host
  sane : vm'.Sane

/-- The state after `n` more bytes of the heap were taken; memory has the contents `f`, and grew no
more than it had to. -/
structure Vm.Becomes (vm : Vm) (n : Nat) (f : Nat → UInt8) (vm' : Vm) : Prop
    extends Vm.Turns vm n f vm' where
  space_le : vm.space ≤ vm'.space ∨ vm.space < vm'.top.toNat

section

variable {vm vm₁ vm₂ : Vm} {n m : Nat} {f g : Nat → UInt8} {size : UInt32}

theorem Vm.Sane.turns (h : vm.Sane) : vm.Turns 0 vm.memory.byte vm :=
  ⟨rfl, rfl, le_rfl, rfl, rfl, rfl, rfl, h⟩

theorem Vm.Sane.becomes (h : vm.Sane) : vm.Becomes 0 vm.memory.byte vm := ⟨h.turns, .inl le_rfl⟩

/-- Space is lost only to a heap that reaches beyond it. -/
theorem Vm.space_le_trans (htop : vm₁.top.toNat ≤ vm₂.top.toNat)
    (h₁ : vm.space ≤ vm₁.space ∨ vm.space < vm₁.top.toNat)
    (h₂ : vm₁.space ≤ vm₂.space ∨ vm₁.space < vm₂.top.toNat) :
    vm.space ≤ vm₂.space ∨ vm.space < vm₂.top.toNat := by
  omega

/-- Memory that can grow to fewer pages than addresses reach is all to be had. -/
theorem Vm.Sane.space_eq (h : vm.Sane) (hlimit : vm.memory.limit ≤ 65535) :
    vm.space = vm.room := by
  rw [Vm.space, if_pos (h.pages_le.trans hlimit), Nat.min_eq_left hlimit, Vm.room]

theorem Vm.Becomes.trans (h₁ : vm.Becomes n f vm₁) (h₂ : vm₁.Becomes m g vm₂) :
    vm.Becomes (n + m) g vm₂ where
  top_eq := by rw [h₂.top_eq, h₁.top_eq, Nat.add_assoc]
  byte_eq := h₂.byte_eq
  size_le := h₁.size_le.trans h₂.size_le
  limit_eq := h₂.limit_eq.trans h₁.limit_eq
  reader_eq := h₂.reader_eq.trans h₁.reader_eq
  stop_eq := h₂.stop_eq.trans h₁.stop_eq
  host_eq := h₂.host_eq.trans h₁.host_eq
  sane := h₂.sane
  space_le := Vm.space_le_trans (by rw [h₂.top_eq]; omega) h₁.space_le h₂.space_le

theorem Vm.Sane.size_le (h : vm.Sane) : vm.memory.size ≤ 4294967296 := by
  have h₁ := h.pages_le
  have h₂ := h.limit_le
  have h₃ : vm.memory.size = vm.memory.pages.size * 65536 := rfl
  have h₄ : maxPages = 65536 := rfl
  omega

theorem Vm.Sane.size_lt (h : vm.Sane) (hlimit : vm.memory.limit ≤ 65535) :
    vm.memory.size < 4294967296 := by
  have h₁ := h.pages_le
  have h₂ : vm.memory.size = vm.memory.pages.size * 65536 := rfl
  omega

/-- Memory has other contents and is of the same size. -/
theorem Vm.Sane.rewrites {m : Memory} (hs : vm.Sane) (hsize : m.size = vm.memory.size)
    (hlimit : m.limit = vm.memory.limit) : vm.Becomes 0 m.byte { vm with memory := m } := by
  have hpages : m.pages.size = vm.memory.pages.size := by
    simpa [Memory.size, pageSize] using hsize
  refine ⟨⟨rfl, rfl, hsize.ge, hlimit, rfl, rfl, rfl, hs.start_le, hs.top_le.trans hsize.ge,
    ?_, ?_⟩, .inl ?_⟩
  · rw [hpages, hlimit]
    exact hs.pages_le
  · exact hlimit.trans_le hs.limit_le
  · rw [Vm.space, Vm.space, hpages, hlimit]

theorem write_becomes (hs : vm.Sane) (h : (Compute.write a bs).run vm = .ok (x, vm₁)) :
    a + bs.length ≤ vm.memory.size ∧ vm.Becomes 0 (patch vm.memory.byte a bs) vm₁ := by
  simp only [Compute.write] at h
  split at h
  · rename_i hfit
    cases h
    rw [← vm.memory.byte_splice_eq_patch hfit]
    exact ⟨hfit, hs.rewrites (by simp) (by simp)⟩
  · simp at h

theorem Vm.turns_grow {k : Nat} {m : Memory} (hs : vm.Sane) (h : vm.memory.grow? k = some m) :
    vm.Turns 0 vm.memory.byte { vm with memory := m } ∧ m.size = vm.memory.size + k * 65536 := by
  have hbyte := Memory.byte_grow h
  simp only [Memory.grow?] at h
  split at h
  · rename_i hfit
    cases h
    have hsize : ({ vm.memory with
        pages := vm.memory.pages ++ Array.replicate k none } : Memory).size =
        vm.memory.size + k * 65536 := by
      change (vm.memory.pages ++ Array.replicate k none).size * 65536 = _
      rw [Array.size_append, Array.size_replicate, Nat.add_mul]
      rfl
    have hle := Nat.le_of_add_right_le hsize.symm.le
    refine ⟨⟨rfl, hbyte, hle, rfl, rfl, rfl, rfl, ?_⟩, hsize⟩
    exact ⟨hs.start_le, hs.top_le.trans hle, by simpa using hfit, hs.limit_le⟩
  · simp at h

theorem grow_ends (hs : vm.Sane) (k : UInt32) :
    (∃ m, vm.memory.grow? k.toNat = some m ∧
      (Compute.grow k).run vm = .ok ((), { vm with memory := m })) ∨
    vm.memory.limit < vm.memory.pages.size + k.toNat ∧
      (Compute.grow k).run vm = .error (.trap .unreachable) := by
  have hpages : vm.memory.pages.size ≤ 65536 := hs.pages_le.trans hs.limit_le
  have hold : UInt32.ofNat vm.memory.pages.size ≠ 0xffffffff := by
    rw [ne_eq, ← UInt32.toNat_inj, UInt32.toNat_ofNat']
    simp
    omega
  simp only [Compute.grow, if_neg hold, Memory.grow?]
  by_cases hfit : vm.memory.pages.size + k.toNat ≤ vm.memory.limit
  · simp only [if_pos hfit]
    exact .inl ⟨_, rfl, rfl⟩
  · simp only [if_neg hfit]
    exact .inr ⟨Nat.lt_of_not_le hfit, trivial⟩

theorem grow_turns {k : UInt32} (hs : vm.Sane) (h : (Compute.grow k).run vm = .ok (x, vm₁)) :
    vm.Turns 0 vm.memory.byte vm₁ := by
  obtain ⟨m, hm, hrun⟩ | ⟨-, hrun⟩ := grow_ends hs k
  · cases hrun.symm.trans h
    exact (Vm.turns_grow hs hm).1
  · cases hrun.symm.trans h

/-! ## Allocation -/

/-- A sum of addresses that is not below its first part does not wrap. -/
theorem toNat_add_of_not_lt {a b : UInt32} (h : ¬ a + b < a) :
    (a + b).toNat = a.toNat + b.toNat := by
  rw [UInt32.lt_iff_toNat_lt, UInt32.toNat_add] at h
  rw [UInt32.toNat_add]
  have := a.toNat_lt
  have := b.toNat_lt
  omega

/-- The number of pages the allocator asks for, for a heap that ends at `next`. It takes 4 GiB of
memory for nothing. -/
def Vm.missing (vm : Vm) (next : Nat) : Nat :=
  (next - vm.memory.size % 2 ^ 32 + 65535) % 2 ^ 32 / 65536

/-- The number of pages that hold `n` bytes. -/
def pagesFor (n : Nat) : Nat := (n + 65535) / 65536

theorem Vm.pages_add_missing {next : Nat} (hs : vm.Sane) (hfull : vm.memory.pages.size ≠ maxPages)
    (hnext : next < 2 ^ 32) :
    vm.memory.pages.size + vm.missing next = max vm.memory.pages.size (pagesFor next) := by
  have hmax : vm.memory.pages.size ≤ maxPages := hs.pages_le.trans hs.limit_le
  have hsize : vm.memory.size = vm.memory.pages.size * 65536 := rfl
  have hpos : 320 ≤ vm.memory.size := hs.start_le.trans hs.top_le
  rw [maxPages] at hmax hfull
  rw [Vm.missing, pagesFor, Nat.mod_eq_of_lt (by omega : vm.memory.size < 2 ^ 32),
    Nat.mod_eq_of_lt (by omega)]
  omega

theorem Vm.missing_of_full {next : Nat} (hfull : vm.memory.pages.size = maxPages) :
    vm.missing next = (next + 65535) % 2 ^ 32 / 65536 := by
  have hsize : vm.memory.size = vm.memory.pages.size * 65536 := rfl
  rw [Vm.missing, hsize, hfull]
  rfl

theorem toNat_missing {next bytes : UInt32} (h : bytes ≤ next) :
    ((next - bytes + 65535) >>> 16).toNat =
      (next.toNat - bytes.toNat + 65535) % 2 ^ 32 / 65536 := by
  rw [UInt32.toNat_shiftRight, UInt32.toNat_add, UInt32.toNat_sub_of_le _ _ h]
  have h16 : (16 : UInt32).toNat % 32 = 16 := rfl
  rw [h16, Nat.shiftRight_eq_div_pow]
  rfl

/-- Memory grows by the missing pages, of which there can be none, if it may have so many. -/
theorem reserve_ends (hs : vm.Sane) (next : UInt32) :
    (∃ m, vm.memory.grow? (vm.missing next.toNat) = some m ∧
      (Compute.reserve next).run vm = .ok ((), { vm with memory := m })) ∨
    vm.memory.limit < vm.memory.pages.size + vm.missing next.toNat ∧
      (Compute.reserve next).run vm = .error (.trap .unreachable) := by
  have hpages : vm.memory.pages.size ≤ 65536 := hs.pages_le.trans hs.limit_le
  have hsize : vm.memory.size = vm.memory.pages.size * 65536 := rfl
  have hbytes : (UInt32.ofNat vm.memory.pages.size <<< 16).toNat = vm.memory.size % 2 ^ 32 := by
    have h16 : (16 : UInt32).toNat % 32 = 16 := rfl
    rw [UInt32.toNat_shiftLeft, UInt32.toNat_ofNat', h16, Nat.shiftLeft_eq]
    omega
  simp only [Compute.reserve, Compute.run_state_bind]
  split
  · rename_i hlt
    rw [Vm.missing, ← hbytes, ← toNat_missing (UInt32.le_of_lt hlt)]
    exact grow_ends hs _
  · rename_i hge
    rw [UInt32.lt_iff_toNat_lt, hbytes] at hge
    have hnone : vm.missing next.toNat = 0 := by
      rw [Vm.missing]
      omega
    refine .inl ⟨vm.memory, ?_, rfl⟩
    rw [hnone]
    simp [Memory.grow?, hs.pages_le]

theorem reserve_turns {next : UInt32} (hs : vm.Sane)
    (h : (Compute.reserve next).run vm = .ok (x, vm₁)) :
    vm.Turns 0 vm.memory.byte vm₁ ∧ next.toNat ≤ vm₁.memory.size ∧
      (vm.space ≤ vm₁.space ∨ vm.space < next.toNat) := by
  obtain ⟨m, hm, hrun⟩ | ⟨-, hrun⟩ := reserve_ends hs next
  · cases hrun.symm.trans h
    obtain ⟨hturns, hsize⟩ := Vm.turns_grow hs hm
    have hpages : vm.memory.size = vm.memory.pages.size * 65536 := rfl
    have hpages₁ : m.size = m.pages.size * 65536 := rfl
    have hnext := next.toNat_lt
    have hlimit : m.limit = vm.memory.limit := hturns.limit_eq
    refine ⟨hturns, ?_⟩
    simp only [Vm.space, hlimit]
    by_cases hfull : vm.memory.pages.size = maxPages
    · rw [if_neg (by rw [hfull]; decide)]
      rw [maxPages] at hfull
      exact ⟨by omega, .inl (Nat.zero_le _)⟩
    · have hadd := Vm.pages_add_missing hs hfull hnext
      have hmax : vm.memory.pages.size ≤ maxPages := hs.pages_le.trans hs.limit_le
      rw [maxPages] at hmax hfull
      rw [pagesFor] at hadd
      refine ⟨by omega, ?_⟩
      rw [if_pos (by omega)]
      split <;> omega

  · cases hrun.symm.trans h

/-- A block that was allocated starts at the old end of the heap and lies inside the memory. -/
theorem allocate_becomes {a : UInt32} (hs : vm.Sane)
    (h : (Compute.allocate size).run vm = .ok (a, vm₁)) :
    a = vm.top ∧ vm.Becomes size.toNat vm.memory.byte vm₁ := by
  simp only [Compute.allocate, Compute.run_state_bind] at h
  obtain ⟨_, vm', htrap, h⟩ := Compute.run_bind_eq_ok.mp h
  simp only [Compute.trapWhen] at htrap
  split at htrap
  · simp at htrap
  · rename_i hwrap
    cases htrap
    obtain ⟨_, vm', hres, h⟩ := Compute.run_bind_eq_ok.mp h
    obtain ⟨hb, hnext, hspace⟩ := reserve_turns hs hres
    rw [Compute.run_update_bind] at h
    cases h
    have htop := toNat_add_of_not_lt (by simpa using hwrap)
    refine ⟨rfl, ⟨htop, hb.byte_eq, hb.size_le, hb.limit_eq, hb.reader_eq, hb.stop_eq,
      hb.host_eq, ?_, hnext, hb.sane.pages_le, hb.sane.limit_le⟩, hspace⟩
    have := hs.start_le
    rw [UInt32.le_iff_toNat_le] at this ⊢
    simp only [htop]
    omega

/-- The heap would end at no address, or in more pages than there may be. -/
def Vm.Refuses (vm : Vm) (size : UInt32) : Prop :=
  2 ^ 32 ≤ vm.top.toNat + size.toNat ∨
    vm.memory.limit < vm.memory.pages.size + vm.missing (vm.top.toNat + size.toNat)

theorem Vm.refuses_iff (hs : vm.Sane) : vm.Refuses size ↔ 2 ^ 32 ≤ vm.top.toNat + size.toNat ∨
      if vm.memory.pages.size = maxPages then vm.top.toNat + size.toNat + 65535 < 2 ^ 32
      else vm.memory.limit < pagesFor (vm.top.toNat + size.toNat) := by
  refine or_congr_right' fun hlt => ?_
  have hstart : 320 ≤ vm.top.toNat := hs.start_le
  have hpages := hs.pages_le
  have hlimit : vm.memory.limit ≤ maxPages := hs.limit_le
  split
  · rename_i hfull
    rw [Vm.missing_of_full hfull]
    rw [hfull] at hpages ⊢
    rw [maxPages] at *
    omega
  · rename_i hfull
    rw [Vm.pages_add_missing hs hfull (by omega)]
    omega

theorem Vm.Sane.pages_of_not_refuses (hs : vm.Sane) (h : ¬ vm.Refuses size) :
    vm.memory.pages.size + vm.missing (vm.top.toNat + size.toNat) =
      max vm.memory.pages.size (pagesFor (vm.top.toNat + size.toNat)) := by
  have hlt := Nat.lt_of_not_le fun hle => h (.inl hle)
  by_cases hfull : vm.memory.pages.size = maxPages
  · rw [Vm.refuses_iff hs, if_pos hfull] at h
    rw [Vm.missing_of_full hfull, hfull, maxPages, pagesFor]
    omega
  · exact Vm.pages_add_missing hs hfull hlt

theorem Vm.Refuses.space_lt (h : vm.Refuses size) (hs : vm.Sane) :
    vm.space < vm.top.toNat + size.toNat := by
  have hstart : 320 ≤ vm.top.toNat := hs.start_le
  rw [Vm.refuses_iff hs, pagesFor, maxPages] at h
  rw [Vm.space]
  split
  · rw [if_neg (by omega)] at h
    omega
  · omega

/-- An allocation adds the missing pages, or it is refused. -/
theorem allocate_ends (hs : vm.Sane) (size : UInt32) :
    (¬ vm.Refuses size ∧ ∃ vm', (Compute.allocate size).run vm = .ok (vm.top, vm') ∧
      vm'.memory.pages.size = vm.memory.pages.size + vm.missing (vm.top.toNat + size.toNat)) ∨
    vm.Refuses size ∧ (Compute.allocate size).run vm = .error (.trap .unreachable) := by
  simp only [Compute.allocate, Compute.run_state_bind]
  by_cases hwrap : vm.top + size < vm.top
  · refine .inr ⟨.inl ?_, Compute.run_bind_error (by simp [Compute.trapWhen, hwrap])⟩
    rw [UInt32.lt_iff_toNat_lt, UInt32.toNat_add] at hwrap
    omega
  · have htop := toNat_add_of_not_lt hwrap
    have hlt := (vm.top + size).toNat_lt
    have htrap : (Compute.trapWhen (vm.top + size < vm.top)).run vm = .ok ((), vm) := by
      simp [Compute.trapWhen, hwrap]
    rw [Compute.run_bind_ok htrap]
    obtain ⟨m, hm, hrun⟩ | ⟨hmore, hrun⟩ := reserve_ends hs (vm.top + size)
    · rw [htop] at hm
      rw [Compute.run_bind_ok hrun]
      obtain ⟨hturns, hsize⟩ := Vm.turns_grow hs hm
      have hpages := Nat.eq_of_mul_eq_mul_right (by decide) (hsize.trans (Nat.add_mul ..).symm)
      have hmax := hturns.sane.pages_le
      rw [hturns.limit_eq, hpages] at hmax
      exact .inl ⟨by rw [Vm.Refuses]; omega, _, rfl, hpages⟩
    · rw [htop] at hmore
      exact .inr ⟨.inr hmore, Compute.run_bind_error hrun⟩

end

/-! ## Runs without traps -/

/-- The computation gives `x`, takes `n` bytes of the heap and leaves memory with contents `f`. -/
def Runs {α : Type} (m : Compute α) (vm : Vm) (x : α) (n : Nat) (f : Nat → UInt8) : Prop :=
  ∃ vm', m.run vm = .ok (x, vm') ∧ vm.Becomes n f vm'

section

variable {α β : Type} {vm : Vm} {n k : Nat} {f g : Nat → UInt8} {next : α → Compute β}

theorem Runs.pure (hs : vm.Sane) (x : α) : Runs (Pure.pure x) vm x 0 vm.memory.byte :=
  ⟨vm, rfl, hs.becomes⟩

theorem Runs.bind {m : Compute α} {x : α} {y : β} (h : Runs m vm x n f)
    (hnext : ∀ vm', vm.Becomes n f vm' → Runs (next x) vm' y k g) :
    Runs (m >>= next) vm y (n + k) g := by
  obtain ⟨vm₁, hm, hb₁⟩ := h
  obtain ⟨vm₂, hnext, hb₂⟩ := hnext vm₁ hb₁
  exact ⟨vm₂, by rw [Compute.run_bind_ok hm, hnext], hb₁.trans hb₂⟩

/-- A first step that takes nothing from the heap. -/
theorem Runs.bind₀ {m : Compute α} {x : α} {y : β} (h : Runs m vm x 0 f)
    (hnext : ∀ vm', vm.Becomes 0 f vm' → Runs (next x) vm' y k g) : Runs (m >>= next) vm y k g := by
  have := h.bind hnext
  rwa [Nat.zero_add] at this

theorem run_write (h : a + bs.length ≤ vm.memory.size) :
    (Compute.write a bs).run vm = .ok ((), { vm with memory := vm.memory.splice a bs }) := by
  simp [Compute.write, h]

theorem runs_write (hs : vm.Sane) (h : a + bs.length ≤ vm.memory.size) :
    Runs (Compute.write a bs) vm () 0 (patch vm.memory.byte a bs) :=
  ⟨_, run_write h, (write_becomes hs (run_write h)).2⟩

end

end MoveCodec.Machine
