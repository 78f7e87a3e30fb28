import MoveCodec.Proofs.Codec.UnpackWords
import MoveCodec.Proofs.Wire.Spread

/-!
# What unpackers build

Whatever bytes it is given, an unpacker that comes to an end has built a value of its form: in blocks
that it took from the end of the heap, none of which overlap. The bytes may lie anywhere, also among
the blocks that are being built. Given the canonical encoding of a value it builds that value, and
traps only if there is no room for it. Both are proved in one go: what is known of the value is a
clue, and without one every value will do.
-/
namespace MoveCodec

open Machine Machine.Compute Codec Bytes
open List hiding rec

variable {form : Form} {fs : Forms} {v : Value} {n r p vec rec base offset slot : UInt32}
  {vm vm' vm₁ vm₂ vm₃ : Vm} {α β : Type} {K a : Nat} {x : form.Val} {next : Unit → Compute Unit}
  {R : fs.Val → Prop} {f : Nat → UInt8}

/-! ## Call data -/

/-- What lies below `K` is below the end of the heap, and the call data has no end before that of
memory. -/
structure Readable (vm : Vm) (K : Nat) : Prop where
  sane : vm.Sane
  le_top : K ≤ vm.top.toNat
  stop_eq : vm.stop = 0xffffffff

theorem Readable.le_size (h : Readable vm K) : K ≤ vm.memory.size :=
  h.le_top.trans h.sane.top_le

theorem Readable.lt (h : Readable vm K) : K < 4294967296 := h.le_top.trans_lt vm.top.toNat_lt

theorem Readable.seen (h : Readable vm K) (seen : List Look) :
    Readable { vm with seen } K :=
  ⟨h.sane.seen seen, h.le_top, h.stop_eq⟩

/-- The canonical encoding of `x` lies below `K` and has its head at `r`. -/
structure CanonicalAt (form : Form) (vm : Vm) (K : Nat) (base r : UInt32) (x : form.Val) : Prop where
  readable : Readable vm K
  decodable : form.decodable = true
  moderate : form.Moderate x
  lies : (form.piece x).Lies vm.memory.byte K base.toNat r.toNat

/-- The unpacker builds a value, the one of the clue if there is one. -/
def Unpacks (form : Form) : Prop :=
  ∀ (K : Nat) (r base : UInt32) ⦃vm : Vm⦄ (clue : Option form.Val), vm.Sane →
    (∀ y ∈ clue, CanonicalAt form vm K base r y) →
    Works (unpacking form r base) vm (clue.map form.footprint) fun v vm' =>
      ∃ x, (∀ y ∈ clue, x = y) ∧ form.Moderate x ∧ Rebuilds form x vm v vm'

/-- A static value stands in its head. -/
theorem lies_static {base r : Nat} (hstatic : form.dynamic = false)
    (h : (form.piece x).Lies f K base r) :
    r + (form.encode x).length ≤ K ∧ view f r (form.encode x).length = form.encode x := by
  obtain ⟨-, hle, h⟩ := h
  simpa [Wire.Piece.width, hstatic] using And.intro hle h

/-- A dynamic value stands where its head points. -/
theorem lies_dynamic {base r : Nat} (hdynamic : form.dynamic = true)
    (h : (form.piece x).Lies f K base r) :
    r + 32 ≤ K ∧ ∃ off, wordAt f r off ∧ base + off + (form.encode x).length ≤ K ∧
      view f (base + off) (form.encode x).length = form.encode x := by
  obtain ⟨-, hle, h⟩ := h
  simpa [Wire.Piece.width, hdynamic] using And.intro hle h

theorem unpacks_word (hbuilds : UnpackBuilds form) (hword : WordRebuilds form)
    (hstatic : form.dynamic = false) (hsize : form.size = 32) : Unpacks form := by
  intro K r base vm clue hs hclue
  cases clue with
  | none =>
    refine ⟨fun v vm' hrun => ?_, nofun⟩
    obtain ⟨x, hx⟩ := hbuilds hs hrun
    exact ⟨x, nofun, hx⟩
  | some y =>
    obtain ⟨hr, -, hmoderate, hlies⟩ := hclue y rfl
    obtain ⟨hle, hview⟩ := lies_static hstatic hlies
    rw [Form.length_encode form y hstatic, hsize] at hle hview
    exact ((hword hs hmoderate (hle.trans hr.le_size) hview).mono fun v vm' _ hx =>
      ⟨y, by rintro _ ⟨⟩; rfl, hmoderate, hx⟩).works

/-! ## Tails -/

/-- Following an offset changes nothing but what was looked at. -/
theorem follow_eq_ok (hs : vm.Sane)
    (h : (follow r base).run vm = .ok (p, vm')) : ∃ seen, vm' = { vm with seen } := by
  obtain ⟨x, vm₁, hload, h₁⟩ := run_bind_eq_ok.mp h
  obtain ⟨_, vm₂, htrap₁, h₂⟩ := run_bind_eq_ok.mp h₁
  rw [run_state_bind] at h₂
  obtain ⟨_, vm₃, htrap₂, h₃⟩ := run_bind_eq_ok.mp h₂
  rw [run_state_bind] at h₃
  obtain ⟨_, vm₄, htrap₃, h₄⟩ := run_bind_eq_ok.mp h₃
  rw [run_look_bind] at h₄
  cases h₄
  obtain ⟨-, -, -, rfl⟩ := loadWord_eq_ok hs (by decide) hload
  obtain ⟨-, rfl⟩ := trapWhen_eq_ok htrap₁
  obtain ⟨-, rfl⟩ := trapWhen_eq_ok htrap₂
  obtain ⟨-, rfl⟩ := trapWhen_eq_ok htrap₃
  exact ⟨_, rfl⟩

theorem lengthAt_eq_ok (hs : vm.Sane)
    (h : (lengthAt p).run vm = .ok (n, vm')) :
    n.toNat ≤ maxElements.toNat ∧ ∃ seen, vm' = { vm with seen } := by
  obtain ⟨x, vm₁, hload, h₁⟩ := run_bind_eq_ok.mp h
  obtain ⟨_, vm₂, htrap, h₂⟩ := run_bind_eq_ok.mp h₁
  cases h₂
  obtain ⟨-, -, -, rfl⟩ := loadWord_eq_ok hs (by decide) hload
  obtain ⟨hle, rfl⟩ := trapWhen_eq_ok htrap
  have hle : ¬ (maxElements < n) := by simpa using hle
  rw [UInt32.lt_iff_toNat_lt] at hle
  exact ⟨by omega, _, rfl⟩

theorem run_follow (base : UInt32) {off : Nat} (hr : Readable vm K)
    (hword : wordAt vm.memory.byte r.toNat off) (hle : r.toNat + 32 ≤ K)
    (hoff : base.toNat + off + 32 ≤ K) :
    ∃ p seen, (follow r base).run vm = .ok (p, { vm with seen }) ∧ p.toNat = base.toNat + off := by
  have hK := hr.lt
  have hval : (UInt32.ofNat off).toNat = off := toNat_ofNat_of_lt (by omega)
  have hp : (UInt32.ofNat off + base).toNat = base.toNat + off := by
    rw [toNat_add_of_lt (by omega), hval, Nat.add_comm]
  have hstop : (0xffffffff : UInt32).toNat = 4294967295 := rfl
  have hwrap : decide (UInt32.ofNat off + base < base) = false := by
    rw [decide_eq_false_iff_not, UInt32.lt_iff_toNat_lt]
    omega
  have hbefore : decide (vm.stop < UInt32.ofNat off + base) = false := by
    rw [decide_eq_false_iff_not, UInt32.lt_iff_toNat_lt, hr.stop_eq]
    omega
  have hwhole : decide (vm.stop - (UInt32.ofNat off + base) < 32) = false := by
    have h32 : (32 : UInt32).toNat = 32 := rfl
    rw [decide_eq_false_iff_not, UInt32.lt_iff_toNat_lt, hr.stop_eq,
      UInt32.toNat_sub_of_le _ _ (UInt32.le_iff_toNat_le.2 (by omega))]
    omega
  refine ⟨UInt32.ofNat off + base, ⟨(UInt32.ofNat off + base).toNat, 32, true⟩ ::
    ⟨r.toNat, 32, false⟩ :: vm.seen, ?_, hp⟩
  rw [follow, run_bind_ok (run_loadWord hr.sane (by decide) (hle.trans hr.le_size) hword (by omega)),
    run_bind_ok (run_trapWhen_false hwrap), run_state_bind,
    run_bind_ok (run_trapWhen_false hbefore), run_state_bind,
    run_bind_ok (run_trapWhen_false hwhole), run_look_bind]
  rfl

theorem run_lengthAt {p : UInt32} {n : Nat} (hr : Readable vm K)
    (hword : wordAt vm.memory.byte p.toNat n) (hle : p.toNat + 32 ≤ K)
    (hn : n ≤ maxElements.toNat) :
    ∃ seen, (lengthAt p).run vm = .ok (UInt32.ofNat n, { vm with seen }) ∧
      (UInt32.ofNat n).toNat = n := by
  have hmax : maxElements.toNat = 67108864 := rfl
  have hval : (UInt32.ofNat n).toNat = n := toNat_ofNat_of_lt (by omega)
  have hbound : decide (maxElements < UInt32.ofNat n) = false := by
    rw [decide_eq_false_iff_not, UInt32.lt_iff_toNat_lt, hval]
    omega
  refine ⟨⟨p.toNat, 32, false⟩ :: vm.seen, ?_, hval⟩
  rw [lengthAt, run_bind_ok (run_loadWord hr.sane (by decide) (hle.trans hr.le_size) hword (by omega)),
    run_bind_ok (run_trapWhen_false hbound)]
  rfl

/-- The tail of a dynamic value is found. -/
theorem works_follow (hdynamic : form.dynamic = true)
    (hlength : ∀ x, 32 ≤ (form.encode x).length) (clue : Option form.Val) (hs : vm.Sane)
    (hclue : ∀ y ∈ clue, CanonicalAt form vm K base r y) :
    Works (follow r base) vm (clue.map fun _ => 0) fun p vm' => (∃ seen, vm' = { vm with seen }) ∧
      ∀ y ∈ clue, p.toNat + (form.encode y).length ≤ K ∧
        view vm.memory.byte p.toNat (form.encode y).length = form.encode y := by
  cases clue with
  | none => exact ⟨fun p vm' hrun => ⟨follow_eq_ok hs hrun, nofun⟩, nofun⟩
  | some y =>
    obtain ⟨hle, off, hword, hfit, hview⟩ := lies_dynamic hdynamic (hclue y rfl).lies
    have hlen := hlength y
    obtain ⟨p, seen, hrun, hp⟩ := run_follow base (hclue y rfl).readable hword hle (by omega)
    refine Tries.works (.inl ⟨p, _, hrun, rfl, .inl le_rfl, ⟨seen, rfl⟩, ?_⟩)
    rintro _ ⟨⟩
    rw [hp]
    exact ⟨hfit, hview⟩

theorem works_lengthAt (clue : Option α) (count : α → Nat) (hs : vm.Sane)
    (hclue : ∀ y ∈ clue, Readable vm K ∧ wordAt vm.memory.byte p.toNat (count y) ∧
      p.toNat + 32 ≤ K ∧ count y ≤ maxElements.toNat) :
    Works (lengthAt p) vm (clue.map fun _ => 0) fun n vm' => n.toNat ≤ maxElements.toNat ∧
      (∃ seen, vm' = { vm with seen }) ∧ ∀ y ∈ clue, n.toNat = count y := by
  cases clue with
  | none =>
    refine ⟨fun n vm' hrun => ?_, nofun⟩
    obtain ⟨hn, hseen⟩ := lengthAt_eq_ok hs hrun
    exact ⟨hn, hseen, nofun⟩
  | some y =>
    obtain ⟨hr, hword, hle, hmax⟩ := hclue y rfl
    obtain ⟨seen, hrun, hn⟩ := run_lengthAt hr hword hle hmax
    refine Tries.works (.inl ⟨_, _, hrun, rfl, .inl le_rfl, by rwa [hn], ⟨seen, rfl⟩, ?_⟩)
    rintro _ ⟨⟩
    exact hn

/-! ## Rows -/

/-- How the elements of a vector are built. What is `told` of an element does not depend on what is
at or above `K`. -/
structure Elements (K : Nat) (wide : Bool) (cost : α → Nat) (P : α → Prop)
    (holds : (Nat → UInt8) → Value → α → List Block → Prop)
    (told : Nat → α → (Nat → UInt8) → Prop) (elem : UInt32 → Compute Value) : Prop where
  holds_congr : ∀ {f g v x bs}, Same f g bs → holds f v x bs → holds g v x bs
  told_congr : ∀ {i x f g}, (∀ k < K, f k = g k) → told i x f → told i x g
  works : ∀ i (clue : Option α) vm, vm.Sane →
    (∀ y ∈ clue, Readable vm K ∧ told i y vm.memory.byte) →
    Works (elem (UInt32.ofNat i)) vm (clue.map cost) fun v vm' => v.wide = wide ∧
      ∃ x, (∀ y ∈ clue, x = y) ∧ P x ∧ ∃ bs, holds vm'.memory.byte v x bs ∧ vm.Grows vm' ∧
        Fresh vm.top.toNat vm'.top.toNat bs

section

variable {wide : Bool} {cost : α → Nat} {P : α → Prop}
  {holds : (Nat → UInt8) → Value → α → List Block → Prop}
  {told : Nat → α → (Nat → UInt8) → Prop} {elem : UInt32 → Compute Value}

/-- The elements are built one after another and put into their places. -/
theorem Elements.row (h : Elements K wide cost P holds told elem) :
    ∀ (n i : Nat) (clue : Option (List α)) (vm : Vm), vm.Sane →
      vec.toNat + 8 + (i + n) * slotSize wide ≤ vm.top.toNat →
      (∀ ys ∈ clue, Readable vm K ∧ K ≤ vec.toNat ∧ ys.length = n ∧
        ∀ j y, ys[j]? = some y → told (i + j) y vm.memory.byte) →
      Works (upTo (fun j => do
        let x ← elem j
        storeSlot wide (vec + j * UInt32.ofNat (slotSize wide)) 8 x) n (UInt32.ofNat i)) vm
        (clue.map fun ys => (ys.map cost).sum) fun _ vm' => ∃ xs rest, (∀ ys ∈ clue, xs = ys) ∧
          xs.length = n ∧ (∀ x ∈ xs, P x) ∧
          Row vm'.memory.byte wide (holds vm'.memory.byte) (vec.toNat + 8 + i * slotSize wide) xs
            rest ∧
          Vm.Edits (vec.toNat + 8 + i * slotSize wide) (vec.toNat + 8 + (i + n) * slotSize wide)
            vm vm' ∧
          Fresh vm.top.toNat vm'.top.toNat rest := by
  intro n
  induction n with
  | zero =>
    intro i clue vm hs _ hclue
    have hnil : ∀ ys ∈ clue, ys = [] := fun ys hys =>
      length_eq_zero_iff.1 (hclue ys hys).2.2.1
    refine .pure ⟨[], [], fun ys hys => (hnil ys hys).symm, rfl, by simp, rfl, .refl hs, fresh_nil⟩ ?_
    intro k hk
    obtain ⟨ys, hys, rfl⟩ := Option.mem_map.1 hk
    simp [hnil ys hys]
  | succ n ih =>
    intro i clue vm hs hfit hclue
    -- What is known of the first element and what is known of the others.
    obtain ⟨parts, rfl⟩ : ∃ parts : Option (α × List α), clue = parts.map fun q => q.1 :: q.2 := by
      cases clue with
      | none => exact ⟨none, rfl⟩
      | some ys =>
        obtain ⟨y, ys, rfl⟩ := exists_cons_of_length_eq_add_one (hclue ys rfl).2.2.1
        exact ⟨some (y, ys), rfl⟩
    have hparts : ∀ q ∈ parts, Readable vm K ∧ K ≤ vec.toNat ∧ q.2.length = n ∧
        told i q.1 vm.memory.byte ∧
        ∀ j y, q.2[j]? = some y → told (i + 1 + j) y vm.memory.byte := by
      intro q hq
      obtain ⟨hr, hvec, hlen, hys⟩ := hclue _ (Option.mem_map_of_mem _ hq)
      refine ⟨hr, hvec, Nat.succ.inj hlen, hys 0 q.1 rfl, fun j y hy => ?_⟩
      rw [Nat.add_assoc, Nat.add_comm 1 j]
      exact hys (j + 1) y hy
    rw [upTo, bind_assoc]
    refine (h.works i (parts.map Prod.fst) vm hs ?_).bind
      (k := (parts.map Prod.snd).map fun ys => (ys.map cost).sum) (fun v vm₁ _ hv => ?_) ?_
    · intro y hy
      obtain ⟨q, hq, rfl⟩ := Option.mem_map.1 hy
      exact ⟨(hparts q hq).1, (hparts q hq).2.2.2.1⟩
    · obtain ⟨rfl, x, hx, hP, here, hholds, hgrows, hhere⟩ := hv
      have hsplit : (i + (n + 1)) * slotSize v.wide =
          i * slotSize v.wide + slotSize v.wide + n * slotSize v.wide := by ring
      have hnext : vec.toNat + 8 + (i + 1) * slotSize v.wide =
          vec.toNat + 8 + i * slotSize v.wide + slotSize v.wide := by ring
      have hend : (i + 1 + n) * slotSize v.wide = (i + (n + 1)) * slotSize v.wide := by ring
      have htop := hgrows.top_le
      have hlt := vm.top.toNat_lt
      have hplace : (vec + UInt32.ofNat i * UInt32.ofNat (slotSize v.wide)).toNat +
          (8 : UInt32).toNat = vec.toNat + 8 + i * slotSize v.wide := by
        have h8 : (8 : UInt32).toNat = 8 := rfl
        rw [toNat_index _ _ _ (by omega), h8]
        omega
      rw [storeSlot_eq, hplace]
      have hlen := length_slotBytes v
      refine (works_write hgrows.sane (by omega)).then (fun _ vm₂ _ hput => ?_) fun _ _ => rfl
      have hput_top := hput.top_eq
      rw [show UInt32.ofNat i + 1 = UInt32.ofNat (i + 1) from (UInt32.ofNat_add i 1).symm]
      refine (ih (i + 1) (parts.map Prod.snd) vm₂ hput.sane (by omega) fun ys hys => ?_).mono
        fun _ vm₃ hrow => ?_
      · obtain ⟨q, hq, rfl⟩ := Option.mem_map.1 hys
        obtain ⟨hr, hvec, hlength, -, htail⟩ := hparts q hq
        have hle := hr.le_top
        refine ⟨⟨hput.sane, by omega, hput.stop_eq.trans (hgrows.stop_eq.trans hr.stop_eq)⟩, hvec,
          hlength, fun j y hy => h.told_congr (fun k hk => ?_) (htail j y hy)⟩
        rw [hput.byte_eq, patch_outside (.inl (by omega))]
        exact hgrows.byte_eq k (by omega) (.inr (Nat.zero_le k))
      · obtain ⟨xs, rest, hxs, hlength, hPs, hrow, hedits, hrest⟩ := hrow
        rw [hnext, hend] at hedits
        rw [hnext] at hrow
        obtain ⟨hslot, hsame, hall, hfresh⟩ :=
          put_part hgrows hhere hput hedits hrest (by omega) hfit
        refine ⟨x :: xs, here ++ rest, fun ys hys => ?_, by simp [hlength], by simpa using ⟨hP, hPs⟩,
          ⟨here, rest, ?_, hrow, rfl⟩, hall, hfresh⟩
        · obtain ⟨q, hq, rfl⟩ := Option.mem_map.1 hys
          rw [hx _ (Option.mem_map_of_mem _ hq), hxs _ (Option.mem_map_of_mem _ hq)]
        · rw [hslot]
          exact h.holds_congr hsame hholds
    · intro j hj
      rw [Option.map_map] at hj
      obtain ⟨q, hq, rfl⟩ := Option.mem_map.1 hj
      exact ⟨_, Option.mem_map_of_mem _ (Option.mem_map_of_mem _ hq), _,
        Option.mem_map_of_mem _ (Option.mem_map_of_mem _ hq), by simp⟩

theorem toNat_vectorSize (hfit : 8 + n.toNat * slot.toNat < 4294967296) :
    (8 + n * slot).toNat = 8 + n.toNat * slot.toNat := by
  have h8 : (8 : UInt32).toNat = 8 := rfl
  have hmul : (n * slot).toNat = n.toNat * slot.toNat := toNat_mul_of_lt (by omega)
  rw [toNat_add_of_lt] <;> rw [h8, hmul]
  exact hfit

/-- A new vector without elements. -/
theorem built_vector {vm vm' : Vm} (hs : vm.Sane) (hfit : 8 + n.toNat * slot.toNat < 4294967296)
    (h : (newVector n slot).run vm = .ok (vec, vm')) :
    vec = vm.top ∧ vm.Grows vm' ∧ vm'.top.toNat = vec.toNat + 8 + n.toNat * slot.toNat ∧
      number vm'.memory.byte vec.toNat 4 = n.toNat ∧
      number vm'.memory.byte (vec.toNat + 4) 4 = n.toNat := by
  obtain ⟨p, vm₁, halloc, h₁⟩ := run_bind_eq_ok.mp h
  obtain ⟨_, vm₂, hlen, h₂⟩ := run_bind_eq_ok.mp h₁
  obtain ⟨_, vm₃, hcap, h₃⟩ := run_bind_eq_ok.mp h₂
  cases h₃
  obtain ⟨rfl, hb⟩ := allocate_becomes hs halloc
  have h0 : (0 : UInt32).toNat = 0 := rfl
  have h4 : (4 : UInt32).toNat = 4 := rfl
  rw [store32, h0, Nat.add_zero] at hlen
  rw [store32, h4] at hcap
  obtain ⟨-, hb₁⟩ := write_becomes hb.sane hlen
  obtain ⟨-, hb₂⟩ := write_becomes hb₁.sane hcap
  have hsize := toNat_vectorSize hfit
  have htop := hb.top_eq
  have htop₁ := hb₁.top_eq
  have htop₂ := hb₂.top_eq
  have hgrows : vm.Grows vm₁ := hb.edits fun _ _ _ => rfl
  have he₁ : Vm.Edits vm.top.toNat vm₁.top.toNat vm₁ vm₂ :=
    hb₁.edits_patch le_rfl (by rw [length_ofNatLE]; omega)
  have he₂ : Vm.Edits vm.top.toNat vm₁.top.toNat vm₂ vm' :=
    hb₂.edits_patch (by omega) (by rw [length_ofNatLE]; omega)
  refine ⟨rfl, (hgrows.edits.trans (he₁.trans he₂)).grows le_rfl, by omega, ?_, ?_⟩
  · rw [hb₂.byte_eq, number, view_patch_outside (.inl le_rfl), hb₁.byte_eq]
    exact number_patch n.toNat_lt
  · rw [hb₂.byte_eq]
    exact number_patch n.toNat_lt

/-- A vector was taken from the heap, and its elements were built. -/
theorem vectorAt_of_row {wide : Bool} {holds : Value → α → List Block → Prop}
    {vm vm' : Vm} {xs : List α} {rest : List Block} (hs : vm.Sane)
    (hn : n.toNat ≤ maxElements.toNat)
    (hvec : (newVector n (UInt32.ofNat (slotSize wide))).run vm = .ok (vec, vm₁))
    (hxs : xs.length = n.toNat) (hrow : Row vm'.memory.byte wide holds (vec.toNat + 8) xs rest)
    (hedits : Vm.Edits (vec.toNat + 8) (vec.toNat + 8 + n.toNat * slotSize wide) vm₁ vm')
    (hrest : Fresh vm₁.top.toNat vm'.top.toNat rest) :
    VectorAt true vm'.memory.byte wide holds vec.toNat xs
        (⟨vec.toNat, 8 + xs.length * slotSize wide⟩ :: rest) ∧ vm.Grows vm' ∧
      Fresh vm.top.toNat vm'.top.toNat (⟨vec.toNat, 8 + xs.length * slotSize wide⟩ :: rest) := by
  obtain ⟨rfl, hgrows, htop, hlen, hcap⟩ := built_vector hs (vector_fits wide hn) hvec
  rw [toNat_slotWord] at htop
  have hhead : Same vm₁.memory.byte vm'.memory.byte [⟨vm.top.toNat, 8⟩] := by
    intro b hb i hstart hstop
    rw [mem_singleton] at hb
    subst hb
    simp only [Block.stop] at hstart hstop
    exact hedits.byte_eq i (by omega) (.inl (by omega))
  refine ⟨⟨?_, fun _ => ?_, rest, hrow, rfl⟩,
    (hgrows.edits.trans (hedits.mono (by omega) le_rfl)).grows le_rfl, ?_⟩
  · rw [← hhead.number_eq le_rfl (by simp [Block.stop]), hlen, hxs]
  · rw [← hhead.number_eq (by simp) (by simp [Block.stop]), hcap, hxs]
  · refine hrest.cons le_rfl ?_ hedits.top_le
    simp only [Block.stop, hxs]
    omega

theorem tries_newVector (hs : vm.Sane) (hfit : 8 + n.toNat * slot.toNat < 4294967296) :
    Tries (newVector n slot) vm (8 + n.toNat * slot.toNat) fun _ _ => True := by
  have hsize := toNat_vectorSize hfit
  rw [← hsize]
  refine (tries_allocate hs (8 + n * slot)).bind (k := 0) fun vec vm₁ hrun _ => ?_
  obtain ⟨rfl, hb⟩ := allocate_becomes hs hrun
  have htop := hb.top_eq
  have h0 : (0 : UInt32).toNat = 0 := rfl
  have h4 : (4 : UInt32).toNat = 4 := rfl
  refine .write_step hb.sane (by rw [length_ofNatLE]; omega) fun vm₂ _ hb₂ => ?_
  have htop₂ := hb₂.top_eq
  exact .write_step hb₂.sane (by rw [length_ofNatLE]; omega) fun _ _ _ => .pure trivial

theorem tries_newVector_slots (hs : vm.Sane) (wide : Bool) {k : Nat} (hn : n.toNat = k)
    (hk : k ≤ maxElements.toNat) :
    Tries (newVector n (UInt32.ofNat (slotSize wide))) vm (8 + k * slotSize wide)
      fun _ _ => True := by
  subst hn
  have h := tries_newVector hs (vector_fits wide hk)
  rwa [toNat_slotWord] at h

/-- The elements of a new vector are built. -/
theorem Elements.vector (h : Elements K wide cost P holds told elem)
    (clue : Option (List α)) (hs : vm.Sane) (hn : n.toNat ≤ maxElements.toNat)
    (hclue : ∀ ys ∈ clue, Readable vm K ∧ n.toNat = ys.length ∧
      ∀ j y, ys[j]? = some y → told j y vm.memory.byte)
    (hvec : (newVector n (UInt32.ofNat (slotSize wide))).run vm = .ok (vec, vm₁))
    (seen : List Look) :
    Works (upTo (fun j => do
        let x ← elem j
        storeSlot wide (vec + j * UInt32.ofNat (slotSize wide)) 8 x) n.toNat 0)
      { vm₁ with seen } (clue.map fun ys => (ys.map cost).sum) fun _ vm' => ∃ xs bs,
        (∀ ys ∈ clue, xs = ys) ∧ xs.length ≤ maxElements.toNat ∧ (∀ x ∈ xs, P x) ∧
          VectorAt true vm'.memory.byte wide (holds vm'.memory.byte) vec.toNat xs bs ∧
          vm.Grows vm' ∧ Fresh vm.top.toNat vm'.top.toNat bs := by
  obtain ⟨rfl, hgrows, htop, -⟩ := built_vector hs (vector_fits wide hn) hvec
  rw [toNat_slotWord] at htop
  refine (h.row n.toNat 0 clue _ (hgrows.sane.seen seen)
    (by rw [Nat.zero_add]; exact htop.ge) fun ys hys => ?_).mono fun _ vm' hrow => ?_
  · obtain ⟨hr, hlen, hys⟩ := hclue ys hys
    refine ⟨⟨hgrows.sane.seen _, hr.le_top.trans hgrows.top_le, hgrows.stop_eq.trans hr.stop_eq⟩,
      hr.le_top, hlen.symm, fun j y hy => ?_⟩
    rw [Nat.zero_add]
    exact h.told_congr (fun k hk => hgrows.byte_eq k (hk.trans_le hr.le_top) (.inr (Nat.zero_le k)))
      (hys j y hy)
  · obtain ⟨xs, rest, hxs, hlen, hP, hrow, hedits, hrest⟩ := hrow
    rw [Nat.zero_mul, Nat.add_zero, Nat.zero_add] at hedits
    rw [Nat.zero_mul, Nat.add_zero] at hrow
    exact ⟨xs, _, hxs, hlen ▸ hn, hP, vectorAt_of_row hs hn hvec hlen hrow
      ((Vm.grows_seen hgrows.sane seen).edits.trans hedits) hrest⟩

end

/-- The number of elements is read, and a vector for them is taken from the heap. -/
theorem works_header (count : form.Val → Nat) (body : form.Val → Bytes) (wide : Bool)
    (hdynamic : form.dynamic = true)
    (hencode : ∀ y, form.encode y = ofNatBE 32 (count y) ++ body y)
    (hcount : ∀ y, form.Moderate y → count y ≤ maxElements.toNat) (clue : Option form.Val)
    (hs : vm.Sane) (hclue : ∀ y ∈ clue, CanonicalAt form vm K base r y)
    {next : UInt32 → UInt32 → UInt32 → Compute β} {k l : Option Nat} {Q : β → Vm → Prop}
    (hnext : ∀ p n vec vm₁ seen, n.toNat ≤ maxElements.toNat →
      (∀ y ∈ clue, n.toNat = count y ∧ p.toNat + 32 + (body y).length ≤ K ∧
        view vm.memory.byte (p.toNat + 32) (body y).length = body y) →
      (newVector n (UInt32.ofNat (slotSize wide))).run { vm with seen } = .ok (vec, vm₁) →
      Works (next p n vec) vm₁ k Q)
    (hl : ∀ j ∈ l, ∃ y ∈ clue, ∃ b ∈ k, j = 8 + count y * slotSize wide + b) : Works (do
      let p ← follow r base
      let n ← lengthAt p
      let vec ← newVector n (UInt32.ofNat (slotSize wide))
      next p n vec) vm l Q := by
  have hlength : ∀ y, (form.encode y).length = 32 + (body y).length := by
    intro y
    rw [hencode]
    simp
  have hzero : ∀ j ∈ l, 0 ∈ clue.map fun _ => 0 := by
    intro j hj
    obtain ⟨y, hy, -⟩ := hl j hj
    exact Option.mem_map_of_mem _ hy
  refine (works_follow hdynamic (fun y => by rw [hlength]; omega) clue hs hclue).then
    (fun p vm₁ _ hp => ?_) hzero
  obtain ⟨⟨seen, rfl⟩, hp⟩ := hp
  have htail : ∀ y ∈ clue, wordAt vm.memory.byte p.toNat (count y) ∧
      p.toNat + 32 + (body y).length ≤ K ∧
      view vm.memory.byte (p.toNat + 32) (body y).length = body y := by
    intro y hy
    obtain ⟨hfit, hview⟩ := hp y hy
    rw [hlength] at hfit hview
    rw [hencode, view_add] at hview
    obtain ⟨hword, hbody⟩ := append_inj hview (by simp)
    exact ⟨hword, by omega, hbody⟩
  refine (works_lengthAt (K := K) clue count (hs.seen seen) fun y hy => ?_).then
    (fun n vm₂ _ hn => ?_) hzero
  · obtain ⟨hword, hfit, -⟩ := htail y hy
    exact ⟨(hclue y hy).readable.seen seen, hword, by omega, hcount y (hclue y hy).moderate⟩
  · obtain ⟨hmax, ⟨seen', rfl⟩, hn⟩ := hn
    refine (tries_newVector_slots (hs.seen seen') wide rfl hmax).works.bind (fun vec vm₃ hvec _ =>
      hnext p n vec vm₃ seen' hmax (fun y hy => ⟨hn y hy, (htail y hy).2⟩) hvec) fun j hj => ?_
    obtain ⟨y, hy, b, hb, rfl⟩ := hl j hj
    exact ⟨_, rfl, b, hb, by rw [hn y hy]⟩

theorem elements_characters (p : UInt32) :
    Elements K false (fun _ => 0) (fun _ => True)
      (fun _ v (b : UInt8) bs => v = .i32 b.toUInt32 ∧ bs = [])
      (fun i b f => f (p.toNat + 32 + i) = b ∧ p.toNat + 32 + i < K)
      fun j => Value.i32 <$> load8 (p + j) 32 where
  holds_congr _ h := h
  told_congr hfg h := ⟨(hfg _ h.2).symm.trans h.1, h.2⟩
  works i clue vm hs hclue := by
    have hplace : ∀ b ∈ clue, (p + UInt32.ofNat i).toNat + (32 : UInt32).toNat = p.toNat + 32 + i := by
      intro b hb
      obtain ⟨hr, -, hlt⟩ := hclue b hb
      have hK := hr.lt
      have h32 : (32 : UInt32).toNat = 32 := rfl
      rw [toNat_add_ofNat (by omega), h32]
      omega
    refine .map ⟨fun x vm' hrun => ?_, fun k hk => ?_⟩
    · obtain ⟨rfl, rfl⟩ := load8_eq_ok hrun
      refine ⟨rfl, _, fun b hb => ?_, trivial, [], ⟨rfl, rfl⟩, .refl hs, fresh_nil⟩
      rw [hplace b hb]
      exact (hclue b hb).2.1
    · obtain ⟨b, hb, rfl⟩ := Option.mem_map.1 hk
      obtain ⟨hr, -, hlt⟩ := hclue b hb
      have hsize := hr.le_size
      have hat := hplace b hb
      exact .inl ⟨_, _, run_load8 (by omega), rfl, .inl le_rfl, trivial⟩

theorem unpacks_string : Unpacks .string := by
  intro K r base vm clue hs hclue
  rw [unpacking]
  refine .map (works_header (k := clue.map fun _ => 4) List.length
    (fun s : Bytes => s ++ Wire.padding s.length) false rfl ?_ ?_ clue hs hclue ?_ ?_)
  · intro s
    rw [Form.encode]
  · intro s hs
    rwa [Form.Moderate] at hs
  · intro p n vec vm₁ seen hmax hn hvec
    refine .look ?_
    rw [copyChars_eq]
    refine ((elements_characters (K := K) p).vector clue (hs.seen seen) hmax
      (fun s hmem => ?_) hvec _).bind (k := some 4) (fun _ vm₂ _ hrow => ?_) ?_
    · obtain ⟨hn, hfit, hview⟩ := hn s hmem
      rw [length_append] at hfit hview
      rw [view_add] at hview
      refine ⟨(hclue s hmem).readable.seen seen, hn, fun j b hb => ?_⟩
      obtain ⟨hj, rfl⟩ := List.getElem?_eq_some_iff.1 hb
      refine ⟨?_, by omega⟩
      have := congrArg (·[j]?) (append_inj hview (by simp)).1
      simpa [view, hj] using this
    · obtain ⟨xs, bs, hxs, hlen, -, hat, hgrows, hfresh⟩ := hrow
      refine ((tries_cellOf hgrows.sane (.i32 vec)).mono fun cell vm' hcell _ => ?_).works
      obtain ⟨hgrows', hcellAt, hfresh', -⟩ := put_cell (fun f v bs => ∃ p : UInt32, v = .i32 p ∧
        VectorAt true f false (fun v (b : UInt8) bs => v = .i32 b.toUInt32 ∧ bs = []) p.toNat xs bs)
        (fun hsame h => h.imp fun p h => ⟨h.1, h.2.congr hsame fun _ _ _ _ h => h⟩) hgrows hfresh
        ⟨vec, rfl, hat⟩ hcell
      refine ⟨xs, hxs, ?_, Rebuilds.of_seen hs ⟨_, ?_, hgrows', hfresh'⟩⟩
      · rw [Form.Moderate]
        exact hlen
      · rw [Form.Holds]
        exact hcellAt
    · intro j hj
      obtain ⟨s, hmem, rfl⟩ := Option.mem_map.1 hj
      exact ⟨0, Option.mem_map.2 ⟨s, hmem, by simp⟩, 4, rfl, rfl⟩
  · intro j hj
    obtain ⟨s, hmem, rfl⟩ := Option.mem_map.1 hj
    exact ⟨s, hmem, 4, Option.mem_map_of_mem _ hmem, by rw [Form.footprint]; rfl⟩

/-! ## Records -/

/-- The parts of the record were built and put into the record at `a`. -/
def RebuildsAll (fs : Forms) (x : fs.Val) (a : Nat) (vm vm' : Vm) : Prop :=
  ∃ bs, fs.Holds true vm'.memory.byte a x bs ∧ Vm.Edits a (a + fs.record) vm vm' ∧
    Fresh vm.top.toNat vm'.top.toNat bs

/-- One part of a record is built and put into its place, and then the others. -/
theorem holds_cons (boxed : Bool) {vm : Vm} {xs : fs.Val} {here rest : List Block}
    (hpart : if boxed then CellAt vm₁.memory.byte form.wide
        (fun v bs => form.Holds true vm₁.memory.byte v x bs) v here
      else form.Holds true vm₁.memory.byte v x here) (hwide : v.wide = (!boxed && form.wide))
    (hgrows : vm.Grows vm₁) (hhere : Fresh vm.top.toNat vm₁.top.toNat here)
    (hput : vm₁.Becomes 0 (patch vm₁.memory.byte a (slotBytes v)) vm₂)
    (hxs : fs.Holds true vm₃.memory.byte (a + form.place boxed) xs rest)
    (hedits : Vm.Edits (a + form.place boxed) (a + form.place boxed + fs.record) vm₂ vm₃)
    (hrest : Fresh vm₂.top.toNat vm₃.top.toNat rest)
    (hfit : a + (Forms.cons boxed form fs).record ≤ vm.top.toNat) :
    (Forms.cons boxed form fs).Holds true vm₃.memory.byte a (x, xs) (here ++ rest) ∧
      Vm.Edits a (a + (Forms.cons boxed form fs).record) vm vm₃ ∧
      Fresh vm.top.toNat vm₃.top.toNat (here ++ rest) := by
  have hplace : form.place boxed = slotSize v.wide := by
    rw [hwide]
    cases boxed <;> rfl
  rw [Forms.record, ← Nat.add_assoc] at hfit ⊢
  rw [hplace] at hfit hedits
  obtain ⟨hslot, hsame, hall, hfresh⟩ := put_part hgrows hhere hput hedits hrest (by omega) hfit
  refine ⟨?_, by rwa [hplace], hfresh⟩
  rw [Forms.Holds]
  refine ⟨here, rest, ?_, hxs, rfl⟩
  rw [hwide] at hslot
  cases boxed with
  | true =>
    rw [if_pos rfl] at hpart ⊢
    rw [show slotAt vm₃.memory.byte false a = v from hslot]
    exact hpart.congr hsame fun _ _ hsame h => h.congr hsame
  | false =>
    rw [if_neg Bool.false_ne_true] at hpart ⊢
    rw [show slotAt vm₃.memory.byte form.wide a = v from hslot]
    exact hpart.congr hsame

theorem toNat_place (form : Form) (boxed : Bool) {n : Nat}
    (h : rec.toNat + offset.toNat + (form.place boxed + n) < 4294967296) :
    rec.toNat + (offset + UInt32.ofNat (form.place boxed)).toNat =
      rec.toNat + offset.toNat + form.place boxed := by
  rw [toNat_add_ofNat (by omega), Nat.add_assoc]

/-- The encoding of a dynamic value has a word at least. -/
theorem Forms.heads_of_dynamic (fs : Forms) (h : fs.dynamic = true) : 32 ≤ fs.heads := by
  match fs with
  | .cons _ f fs =>
    rw [Forms.dynamic, Bool.or_eq_true] at h
    rw [Forms.heads]
    rcases h with h | h
    · rw [Form.head, if_pos h]
      omega
    · have := fs.heads_of_dynamic h
      omega

theorem tame_cellOf (v : Value) : Tame 0 (cellOf v) :=
  (tame_allocate _).then fun _ => (tame_storeSlot _ _ (Nat.zero_le _)).then fun _ => .pure trivial

/-- A part that was built is put into the record, behind a cell of its own when it is a reference;
then the others are built. -/
theorem works_part {boxed : Bool} {k l : Option Nat} (hv : Rebuilds form x vm v vm₁)
    (hwide : v.wide = form.wide)
    (hfit : rec.toNat + offset.toNat + (Forms.cons boxed form fs).record ≤ vm.top.toNat)
    (hnext : ∀ vm₂, vm₂.Sane → vm.top.toNat ≤ vm₂.top.toNat → vm₂.stop = vm.stop →
      vm₂.reader = vm₁.reader → (∀ i < rec.toNat, vm.memory.byte i = vm₂.memory.byte i) →
      Works (next ()) vm₂ k fun _ vm₃ => ∃ xs, R xs ∧
        RebuildsAll fs xs (rec.toNat + (offset + UInt32.ofNat (form.place boxed)).toNat) vm₂ vm₃)
    (hl : ∀ j ∈ l, ∃ b ∈ k, j = (if boxed then slotSize form.wide else 0) + b) :
    Works (storeParam boxed form.wide rec offset v >>= next) vm₁ l fun _ vm₃ => ∃ xs, R xs ∧
      RebuildsAll (.cons boxed form fs) (x, xs) (rec.toNat + offset.toNat) vm vm₃ := by
  obtain ⟨here, hx, hgrows, hhere⟩ := hv
  have hlt := vm.top.toNat_lt
  have hfit' := hfit
  rw [Forms.record, ← Nat.add_assoc] at hfit'
  have hput : ∀ w vm' here, (if boxed then CellAt vm'.memory.byte form.wide
        (fun v bs => form.Holds true vm'.memory.byte v x bs) w here
      else form.Holds true vm'.memory.byte w x here) → w.wide = (!boxed && form.wide) →
      vm.Grows vm' → Fresh vm.top.toNat vm'.top.toNat here → vm'.reader = vm₁.reader →
      Works (storeSlot w.wide rec offset w >>= next) vm' k fun _ vm₃ => ∃ xs, R xs ∧
        RebuildsAll (.cons boxed form fs) (x, xs) (rec.toNat + offset.toNat) vm vm₃ := by
    intro w vm' here hpart hw hgrows hhere hreader
    have hplace : form.place boxed = slotSize w.wide := by
      rw [hw]
      cases boxed <;> rfl
    have htop := hgrows.top_le
    have hlen := length_slotBytes w
    rw [storeSlot_eq]
    refine (works_write hgrows.sane (by omega)).then (fun _ vm₂ _ hput => ?_) fun _ _ => rfl
    have hput_top := hput.top_eq
    refine (hnext vm₂ hput.sane (by omega) (hput.stop_eq.trans hgrows.stop_eq)
      (hput.reader_eq.trans hreader) fun i hi => ?_).mono fun _ vm₃ hrest => ?_
    · rw [hput.byte_eq, patch_outside (.inl (by omega))]
      exact hgrows.byte_eq i (by omega) (.inr (Nat.zero_le i))
    · obtain ⟨xs, hR, rest, hxs, hedits, hrest⟩ := hrest
      rw [toNat_place form boxed (hfit.trans_lt hlt)] at hxs hedits
      exact ⟨xs, hR, _, holds_cons boxed hpart hw hgrows hhere hput hxs hedits hrest hfit⟩
  cases boxed with
  | false =>
    rw [storeParam, if_neg Bool.false_ne_true, ← hwide]
    have h := hput v vm₁ here hx hwide hgrows hhere rfl
    exact ⟨h.ends, fun j hj => by
      obtain ⟨b, hb, rfl⟩ := hl j hj
      simpa using h.tries b hb⟩
  | true =>
    have hcell := tries_cellOf hgrows.sane v
    rw [hwide] at hcell
    rw [← hwide, storeParam_boxed, bind_assoc]
    refine hcell.works.bind (k := k) (fun cell vm' hrun _ => ?_) fun j hj => ?_
    · obtain ⟨hgrows', hat, hfresh, -⟩ := put_cell (fun f v bs => form.Holds true f v x bs)
        (fun hsame h => h.congr hsame) hgrows hhere hx hrun
      rw [hwide] at hat hfresh
      exact hput (.i32 cell) vm' _ hat rfl hgrows' hfresh
        ((tame_cellOf v).spares hgrows.sane (Nat.zero_le _) hrun).2.reader_eq
    · obtain ⟨b, hb, rfl⟩ := hl j hj
      exact ⟨_, rfl, b, hb, rfl⟩

/-- A record is taken from the heap and filled. -/
theorem works_record (fill : UInt32 → Compute Unit) (c : UInt32 → β) {k l : Option Nat}
    (hsize : fs.record < UInt32.size) (hs : vm.Sane)
    (hfill : ∀ vm₁, vm.Becomes fs.record vm.memory.byte vm₁ →
      Works (fill vm.top) vm₁ k fun _ vm' => ∃ x, R x ∧ RebuildsAll fs x vm.top.toNat vm₁ vm')
    (hl : ∀ j ∈ l, ∃ b ∈ k, j = fs.record + b) : Works (do
      let rec' ← allocate (UInt32.ofNat fs.record)
      fill rec'
      return c rec') vm l fun y vm' => y = c vm.top ∧ ∃ x, R x ∧ ∃ bs,
        fs.Holds true vm'.memory.byte vm.top.toNat x bs ∧ vm.Grows vm' ∧
        Fresh vm.top.toNat vm'.top.toNat (⟨vm.top.toNat, fs.record⟩ :: bs) := by
  have hrecord : (UInt32.ofNat fs.record).toNat = fs.record := toNat_ofNat_of_lt hsize
  have halloc := tries_allocate hs (UInt32.ofNat fs.record)
  rw [hrecord] at halloc
  refine halloc.works.bind (k := k) (fun rec vm₁ hrun _ => ?_) fun j hj => ?_
  · obtain ⟨rfl, hb⟩ := allocate_becomes hs hrun
    rw [hrecord] at hb
    have htop := hb.top_eq
    refine (hfill vm₁ hb).bind (k := some 0) (fun _ vm' _ hall => .pure ?_ (by simp))
      fun j hj => ⟨j, hj, 0, rfl, rfl⟩
    obtain ⟨x, hR, bs, hx, hedits, hfresh⟩ := hall
    have hgrows : vm.Grows vm₁ := hb.edits fun _ _ _ => rfl
    exact ⟨rfl, x, hR, bs, hx, (hgrows.edits.trans hedits).grows le_rfl,
      hfresh.cons le_rfl (by simp only [Block.stop]; omega) hedits.top_le⟩
  · obtain ⟨b, hb, rfl⟩ := hl j hj
    exact ⟨_, rfl, b, hb, rfl⟩

/-- The canonical encoding of the values of a record lies below `K`, with its heads from `a` on. -/
structure CanonicalFrom (fs : Forms) (vm : Vm) (K : Nat) (base : UInt32) (a : Nat) (x : fs.Val) :
    Prop where
  readable : Readable vm K
  decodable : fs.decodable = true
  moderate : fs.Moderate x
  spread : ∃ t, Wire.Spread vm.memory.byte K base.toNat a t (fs.pieces x)

theorem CanonicalFrom.cons {boxed : Bool} {a : Nat} {x : (Forms.cons boxed form fs).Val}
    (h : CanonicalFrom (.cons boxed form fs) vm K base a x) : a + form.head < 4294967296 ∧
      (∀ r : UInt32, r.toNat = a → CanonicalAt form vm K base r x.1) ∧
      CanonicalFrom fs vm K base (a + form.head) x.2 := by
  obtain ⟨hr, hdecodable, hmoderate, t, hspread⟩ := h
  rw [Forms.decodable, Bool.and_eq_true] at hdecodable
  rw [Forms.Moderate] at hmoderate
  rw [Forms.pieces_cons] at hspread
  obtain ⟨hx, hxs⟩ := hspread.cons
  have hhead := hx.2.1
  rw [form.width_piece] at hxs hhead
  refine ⟨hhead.trans_lt hr.lt, ?_, hr, hdecodable.2, hmoderate.2, _, hxs⟩
  rintro r rfl
  exact ⟨hr, hdecodable.1, hmoderate.1, hx⟩

theorem CanonicalFrom.congr {x : fs.Val} (h : CanonicalFrom fs vm K base a x) (hs : vm₂.Sane)
    (htop : vm.top.toNat ≤ vm₂.top.toNat) (hstop : vm₂.stop = vm.stop)
    (hbyte : ∀ i < K, vm.memory.byte i = vm₂.memory.byte i) : CanonicalFrom fs vm₂ K base a x := by
  obtain ⟨hr, hdecodable, hmoderate, t, hspread⟩ := h
  exact ⟨⟨hs, hr.le_top.trans htop, hstop.trans hr.stop_eq⟩, hdecodable, hmoderate, t,
    hspread.congr hbyte⟩

/-- The first part of a record is built and put into its place, then the others are. -/
theorem works_cons (boxed : Bool) {first : Compute Value} (clue : Option (form.Val × fs.Val))
    (hfit : rec.toNat + offset.toNat + (Forms.cons boxed form fs).record ≤ vm.top.toNat)
    (hfirst : Works first vm ((clue.map Prod.fst).map form.footprint) fun v vm₁ =>
      v.wide = form.wide ∧ ∃ x, (∀ y ∈ clue.map Prod.fst, x = y) ∧ form.Moderate x ∧
        Rebuilds form x vm v vm₁) (hnext : ∀ v vm₁ vm₂, first.run vm = .ok (v, vm₁) → vm₂.Sane →
      vm.top.toNat ≤ vm₂.top.toNat → vm₂.stop = vm.stop → vm₂.reader = vm₁.reader →
      (∀ i < rec.toNat, vm.memory.byte i = vm₂.memory.byte i) →
      rec.toNat + (offset + UInt32.ofNat (form.place boxed)).toNat + fs.record ≤ vm₂.top.toNat →
      Works (next ()) vm₂ ((clue.map Prod.snd).map fs.footprint) fun _ vm₃ =>
        ∃ xs, ((∀ ys ∈ clue.map Prod.snd, xs = ys) ∧ fs.Moderate xs) ∧
          RebuildsAll fs xs (rec.toNat + (offset + UInt32.ofNat (form.place boxed)).toNat) vm₂ vm₃) :
    Works (first >>= fun v => storeParam boxed form.wide rec offset v >>= next) vm
      (clue.map (Forms.cons boxed form fs).footprint) fun _ vm₃ =>
        ∃ x, ((∀ y ∈ clue, x = y) ∧ (Forms.cons boxed form fs).Moderate x) ∧
          RebuildsAll (.cons boxed form fs) x (rec.toNat + offset.toNat) vm vm₃ := by
  have hplace := toNat_place form boxed (hfit.trans_lt vm.top.toNat_lt)
  refine hfirst.bind (k := (clue.map Prod.snd).map fun ys =>
    (if boxed then slotSize form.wide else 0) + fs.footprint ys) (fun v vm₁ hrun hv => ?_)
    fun j hj => ?_
  · obtain ⟨hwide, x, hx, hmoderate, hv⟩ := hv
    refine (works_part hv hwide hfit (fun vm₂ hs₂ htop hstop hreader hbyte => hnext v vm₁ vm₂ hrun
      hs₂ htop hstop hreader hbyte ?_) fun j hj => ?_).mono fun _ vm₃ hall => ?_
    · rw [hplace, Nat.add_assoc]
      exact hfit.trans htop
    · obtain ⟨ys, hys, rfl⟩ := Option.mem_map.1 hj
      exact ⟨_, Option.mem_map_of_mem _ hys, rfl⟩
    · obtain ⟨xs, ⟨hxs, hmoderates⟩, hall⟩ := hall
      exact ⟨(x, xs), ⟨fun y hy => Prod.ext (hx _ (Option.mem_map_of_mem _ hy))
        (hxs _ (Option.mem_map_of_mem _ hy)), hmoderate, hmoderates⟩, hall⟩
  · obtain ⟨y, hy, rfl⟩ := Option.mem_map.1 hj
    exact ⟨_, Option.mem_map_of_mem _ (Option.mem_map_of_mem _ hy), _,
      Option.mem_map_of_mem _ (Option.mem_map_of_mem _ hy),
      by rw [Forms.footprint, Nat.add_assoc]⟩

/-- No part is left to build. -/
theorem works_nil (clue : Option Forms.nil.Val) (hs : vm.Sane) :
    Works (pure ()) vm (clue.map Forms.nil.footprint) fun _ vm' =>
      ∃ x, ((∀ y ∈ clue, x = y) ∧ Forms.nil.Moderate x) ∧ RebuildsAll .nil x a vm vm' := by
  refine .pure ⟨(), ⟨fun _ _ => rfl, trivial⟩, [], by rw [Forms.Holds], .refl hs, fresh_nil⟩ ?_
  intro k hk
  obtain ⟨y, -, rfl⟩ := Option.mem_map.1 hk
  rw [Forms.footprint]

/-- The parts of a record are built, those of the clue if there is one. -/
def UnpacksAll (fs : Forms) : Prop :=
  ∀ (K : Nat) (rec r base place offset : UInt32) ⦃vm : Vm⦄ (clue : Option fs.Val), vm.Sane →
    rec.toNat + offset.toNat + fs.record ≤ vm.top.toNat →
    (∀ y ∈ clue, K ≤ rec.toNat ∧ CanonicalFrom fs vm K base (r.toNat + place.toNat) y) →
    Works (unpackingAll fs rec r base place offset) vm (clue.map fs.footprint) fun _ vm' =>
      ∃ x, ((∀ y ∈ clue, x = y) ∧ fs.Moderate x) ∧
        RebuildsAll fs x (rec.toNat + offset.toNat) vm vm'

theorem unpacksAll_cons (hform : Unpacks form) (hfs : UnpacksAll fs) :
    UnpacksAll (.cons false form fs) := by
  intro K rec r base place offset vm clue hs hfit hclue
  rw [unpackingAll]
  refine works_cons false clue hfit ?_ fun v vm₁ vm₂ _ hs₂ htop hstop _ hbyte hfit₂ => ?_
  · have h := hform K (r + place) base (clue.map Prod.fst) hs fun y hy => ?_
    · exact ⟨fun v vm' hrun => ⟨unpacking_wide form _ _ _ _ _ hrun, h.ends hrun⟩, h.tries⟩
    · obtain ⟨q, hq, rfl⟩ := Option.mem_map.1 hy
      obtain ⟨hlt, hx, -⟩ := (hclue q hq).2.cons
      exact hx _ (toNat_add_of_lt (by omega))
  · refine hfs K rec r base _ _ (clue.map Prod.snd) hs₂ hfit₂ fun ys hys => ?_
    obtain ⟨q, hq, rfl⟩ := Option.mem_map.1 hys
    obtain ⟨hrec, hq⟩ := hclue q hq
    obtain ⟨hlt, -, hxs⟩ := hq.cons
    have hnext : r.toNat + (place + form.headWord).toNat = r.toNat + place.toNat + form.head := by
      rw [Form.headWord, toNat_add_ofNat (by omega), Nat.add_assoc]
    rw [hnext]
    exact ⟨hrec, hxs.congr hs₂ htop hstop fun i hi => hbyte i (hi.trans_le hrec)⟩

/-- A record is built, wherever the heads of its parts are. -/
theorem works_struct (hsize : fs.record < UInt32.size) (hfs : UnpacksAll fs)
    (clue : Option fs.Val) (hs : vm.Sane)
    (hclue : ∀ y ∈ clue, CanonicalFrom fs vm K base r.toNat y) :
    Works (do
      let rec' ← allocate (UInt32.ofNat fs.record)
      unpackingAll fs rec' r base 0 0
      return Value.i32 rec') vm (clue.map (Form.struct fs).footprint) fun v vm' =>
        ∃ x, (∀ y ∈ clue, x = y) ∧ (Form.struct fs).Moderate x ∧
          Rebuilds (.struct fs) x vm v vm' := by
  have h0 : (0 : UInt32).toNat = 0 := rfl
  refine (works_record _ Value.i32 (k := clue.map fs.footprint)
    (R := fun x => (∀ y ∈ clue, x = y) ∧ fs.Moderate x) hsize hs (fun vm₁ hb => ?_)
    fun j hj => ?_).mono fun v vm' hv => ?_
  · have htop := hb.top_eq
    have h := hfs K vm.top r base 0 0 clue hb.sane (by rw [h0]; omega) fun y hy => ?_
    · rwa [h0, Nat.add_zero] at h
    · exact ⟨(hclue y hy).readable.le_top, (hclue y hy).congr hb.sane (by omega) hb.stop_eq
        fun i _ => by rw [hb.byte_eq]⟩
  · obtain ⟨y, hy, rfl⟩ := Option.mem_map.1 hj
    exact ⟨_, Option.mem_map_of_mem _ hy, by rw [Form.footprint]⟩
  · obtain ⟨rfl, x, ⟨hx, hmoderate⟩, bs, hholds, hgrows, hfresh⟩ := hv
    refine ⟨x, hx, by rwa [Form.Moderate], _, ?_, hgrows, hfresh⟩
    rw [Form.Holds]
    exact ⟨vm.top, bs, rfl, hholds, rfl⟩

mutual

theorem unpacks : ∀ form : Form, form.compact = true → Unpacks form
  | .bool, _ => unpacks_word builds_bool rebuilds_bool rfl rfl
  | .int width, _ => unpacks_word (builds_int width) (rebuilds_int width) rfl rfl
  | .address, _ => unpacks_word builds_address rebuilds_address rfl rfl
  | .enum n, hcompact => by
    rw [Form.compact, decide_eq_true_eq] at hcompact
    exact unpacks_word (builds_enum n) (rebuilds_enum hcompact) rfl rfl
  | .string, _ => unpacks_string
  | .bytes n, _ => unpacks_word (builds_bytes n) (rebuilds_bytes n) rfl rfl
  | .uid, _ => by
    intro K r base vm clue _ hclue
    rw [unpacking]
    refine ⟨nofun, fun k hk => ?_⟩
    obtain ⟨y, hy, -⟩ := Option.mem_map.1 hk
    have hdecodable := (hclue y hy).decodable
    rw [Form.decodable] at hdecodable
    cases hdecodable
  | .id, _ => unpacks_word builds_id rebuilds_id rfl rfl
  | .vector e, hcompact => by
    rw [Form.compact] at hcompact
    intro K r base vm clue hs hclue
    rw [unpacking]
    refine works_header (k := clue.map fun xs => (xs.map e.footprint).sum) List.length
      (fun xs : List e.Val => Wire.join (xs.map e.piece)) e.wide
      (by rw [Form.dynamic]) ?_ ?_ clue hs hclue ?_ ?_
    · intro xs
      rw [Form.encode]
    · intro xs hxs
      rw [Form.Moderate] at hxs
      exact hxs.1
    · intro p n vec vm₁ seen hmax hn hvec
      have helements : Elements K e.wide e.footprint e.Moderate (fun f => e.Holds true f)
          (fun i x f => e.decodable = true ∧ e.Moderate x ∧
            (e.piece x).Lies f K (p + 32).toNat ((p + 32).toNat + i * e.head))
          fun j => unpacking e (p + 32 + j * e.headWord) (p + 32) := by
        refine ⟨fun hsame h => h.congr hsame, fun hfg h => ⟨h.1, h.2.1, h.2.2.congr hfg⟩,
          fun i clue vm hs hclue => ?_⟩
        have h := unpacks e hcompact K (p + 32 + UInt32.ofNat i * e.headWord) (p + 32) clue hs
          fun x hx => ?_
        · exact ⟨fun v vm' hrun => ⟨unpacking_wide e _ _ _ _ _ hrun, h.ends hrun⟩, h.tries⟩
        · obtain ⟨hr, hdecodable, hmoderate, hlies⟩ := hclue x hx
          have hK := hr.lt
          have hle := hlies.2.1
          have hplace : (p + 32 + UInt32.ofNat i * e.headWord).toNat =
              (p + 32).toNat + i * e.head := toNat_index _ _ _ (by omega)
          exact ⟨hr, hdecodable, hmoderate, hplace ▸ hlies⟩
      refine (helements.vector clue (hs.seen seen) hmax (fun xs hxs => ?_) hvec vm₁.seen).bind
        (k := some 0) (fun _ vm' _ hrow => .pure ?_ (by simp)) fun j hj => ⟨j, hj, 0, rfl, rfl⟩
      · obtain ⟨hr, hdecodable, hmoderate, -⟩ := hclue xs hxs
        obtain ⟨hn, hfit, hview⟩ := hn xs hxs
        rw [Form.decodable] at hdecodable
        rw [Form.Moderate] at hmoderate
        have hK := hr.lt
        have hp32 : (p + 32).toNat = p.toNat + 32 := toNat_add_ofNat (n := 32) (by omega)
        rw [← hp32] at hfit hview
        refine ⟨hr.seen seen, hn, fun j x hx => ⟨hdecodable,
          hmoderate.2 x (mem_of_getElem? hx), ?_⟩⟩
        refine (Wire.Spread.of_join hview hfit).lies
          (forall_mem_map.2 fun y _ => e.width_piece y) ?_
        rw [getElem?_map, hx]
        rfl
      · obtain ⟨xs, bs, hxs, hlen, hP, hat, hgrows, hfresh⟩ := hrow
        refine ⟨xs, hxs, ?_, Rebuilds.of_seen hs ⟨bs, ?_, hgrows, hfresh⟩⟩
        · rw [Form.Moderate]
          exact ⟨hlen, hP⟩
        · rw [Form.Holds]
          exact ⟨vec, rfl, hat⟩
    · intro j hj
      obtain ⟨xs, hxs, rfl⟩ := Option.mem_map.1 hj
      exact ⟨xs, hxs, _, Option.mem_map_of_mem _ hxs, by rw [Form.footprint]⟩
  | .struct fields, hcompact => by
    simp only [Form.compact, Bool.and_eq_true, decide_eq_true_eq] at hcompact
    obtain ⟨⟨hunboxed, hsize⟩, hfields⟩ := hcompact
    have hall := unpacksAll fields hunboxed hfields
    intro K r base vm clue hs hclue
    have hencode : ∀ y, Form.encode (.struct fields) y = Wire.join (fields.pieces y) := by
      intro y
      rw [Form.encode]
    have hparts : ∀ y ∈ clue, fields.decodable = true ∧ fields.Moderate y := by
      intro y hy
      obtain ⟨-, hdecodable, hmoderate, -⟩ := hclue y hy
      rw [Form.decodable] at hdecodable
      rw [Form.Moderate] at hmoderate
      exact ⟨hdecodable, hmoderate⟩
    rw [unpacking]
    split
    · rename_i hdynamic
      have hlength : ∀ y, 32 ≤ (Form.encode (.struct fields) y).length := by
        intro y
        have hlen := Wire.length_join (fields.pieces y)
        rw [fields.headsSize_pieces] at hlen
        have hheads := fields.heads_of_dynamic hdynamic
        rw [hencode]
        omega
      refine (works_follow (by rwa [Form.dynamic]) hlength clue hs hclue).then
        (fun p vm₁ _ hp => ?_) fun j hj => ?_
      · obtain ⟨⟨seen, rfl⟩, hp⟩ := hp
        refine (works_struct (K := K) hsize hall clue (hs.seen seen) fun y hy => ?_).mono
          fun v vm' ⟨x, hx, hmoderate, hv⟩ => ⟨x, hx, hmoderate, hv.of_seen hs⟩
        obtain ⟨hfit, hview⟩ := hp y hy
        rw [hencode] at hfit hview
        exact ⟨(hclue y hy).readable.seen seen, (hparts y hy).1, (hparts y hy).2, _,
          .of_join hview hfit⟩
      · obtain ⟨y, hy, -⟩ := Option.mem_map.1 hj
        exact Option.mem_map_of_mem _ hy
    · rename_i hstatic
      have hstatic : fields.dynamic = false := by simpa using hstatic
      refine works_struct (K := K) hsize hall clue hs fun y hy => ?_
      have hlies := (hclue y hy).lies
      obtain ⟨hle, hview⟩ := lies_static (by rwa [Form.dynamic]) hlies
      rw [hencode] at hle hview
      exact ⟨(hclue y hy).readable, (hparts y hy).1, (hparts y hy).2, _,
        .of_static (fields.pieces_static y hstatic) hview hle hlies.1⟩

theorem unpacksAll : ∀ fs : Forms, fs.unboxed = true → fs.compact = true → UnpacksAll fs
  | .nil, _, _ => by
    intro K rec r base place offset vm clue hs _ _
    rw [unpackingAll]
    exact works_nil clue hs
  | .cons boxed form fs, hunboxed, hcompact => by
    simp only [Forms.unboxed, Bool.and_eq_true, Bool.not_eq_true'] at hunboxed
    simp only [Forms.compact, Bool.and_eq_true] at hcompact
    obtain ⟨rfl, hunboxed⟩ := hunboxed
    exact unpacksAll_cons (unpacks form hcompact.1) (unpacksAll fs hunboxed hcompact.2)

end

/-! ## Parameters -/

theorem unpackingParams_works : ∀ fs : Forms, fs.compact = true →
    ∀ (K : Nat) (rec base offset : UInt32) (vm : Vm) (clue : Option fs.Val), vm.Sane →
      rec.toNat + offset.toNat + fs.record ≤ vm.top.toNat →
      (∀ y ∈ clue, K ≤ rec.toNat ∧ CanonicalFrom fs vm K base vm.reader.toNat y) →
      Works (unpackingParams fs rec base offset) vm (clue.map fs.footprint) fun _ vm' =>
        ∃ x, ((∀ y ∈ clue, x = y) ∧ fs.Moderate x) ∧
          RebuildsAll fs x (rec.toNat + offset.toNat) vm vm'
  | .nil, _, K, rec, base, offset, vm, clue, hs, _, _ => works_nil clue hs
  | .cons boxed form fs, hcompact, K, rec, base, offset, vm, clue, hs, hfit, hclue => by
    simp only [Forms.compact, Bool.and_eq_true] at hcompact
    -- The value is built, and the reader moves on.
    let first : Compute Value := do
      let x ← unpacking form (← state).reader base
      update fun vm => { vm with reader := vm.reader + form.headWord }
      return x
    have hrun : ∀ {v vm₁}, first.run vm = .ok (v, vm₁) → ∃ vm', (unpacking form vm.reader base).run vm =
        .ok (v, vm') ∧ vm₁ = { vm' with reader := vm'.reader + form.headWord } := by
      intro v vm₁ h
      rw [run_state_bind] at h
      obtain ⟨x, vm', hx, h⟩ := run_bind_eq_ok.mp h
      cases h
      exact ⟨vm', hx, rfl⟩
    have hassoc : unpackingParams (.cons boxed form fs) rec base offset = first >>= fun v =>
        storeParam boxed form.wide rec offset v >>= fun _ =>
          unpackingParams fs rec base (offset + UInt32.ofNat (form.place boxed)) := by
      rw [unpackingParams]
      simp [first]
    have h := unpacks form hcompact.1 K vm.reader base (clue.map Prod.fst) hs
      fun y hy => ?_
    · rw [hassoc]
      refine works_cons boxed clue hfit ⟨fun v vm₁ h₁ => ?_, fun k hk => ?_⟩
        fun v vm₁ vm₂ h₁ hs₂ htop hstop hreader hbyte hfit₂ => ?_
      · obtain ⟨vm', hv, rfl⟩ := hrun h₁
        obtain ⟨x, hx, hmoderate, bs, hholds, hgrows, hfresh⟩ := h.ends hv
        exact ⟨unpacking_wide form _ _ _ _ _ hv, x, hx, hmoderate, bs, hholds, { hgrows with
          sane := ⟨hgrows.sane.1, hgrows.sane.2, hgrows.sane.3, hgrows.sane.4⟩ }, hfresh⟩
      · refine .step (show state.run vm = .ok (vm, vm) from rfl) rfl le_rfl ?_
        exact (h.tries k hk).bind (k := 0) fun v vm' _ _ => .update
          (f := fun vm => { vm with reader := vm.reader + form.headWord }) rfl le_rfl (.pure trivial)
      · refine unpackingParams_works fs hcompact.2 K rec base _ vm₂ (clue.map Prod.snd) hs₂ hfit₂
          fun ys hys => ?_
        obtain ⟨q, hq, rfl⟩ := Option.mem_map.1 hys
        obtain ⟨hrec, hq⟩ := hclue q hq
        obtain ⟨hlt, hx, hxs⟩ := hq.cons
        obtain ⟨vm', hv, rfl⟩ := hrun h₁
        have hmoved : vm'.reader = vm.reader := ((tame_unpacking form _ _
          (hx _ rfl).decodable).spares hs (Nat.zero_le _) hv).2.reader_eq
        have hnext : vm₂.reader.toNat = vm.reader.toNat + form.head := by
          rw [hreader]
          change (vm'.reader + form.headWord).toNat = _
          rw [hmoved, Form.headWord, toNat_add_ofNat (by omega)]
        rw [hnext]
        exact ⟨hrec, hxs.congr hs₂ htop hstop fun i hi => hbyte i (hi.trans_le hrec)⟩
    · obtain ⟨q, hq, rfl⟩ := Option.mem_map.1 hy
      exact (hclue q hq).2.cons.2.1 _ rfl

theorem unpackingTuple_works (base : UInt32) (hcompact : fs.compact = true) (hsize : fs.record < UInt32.size)
    (clue : Option fs.Val) (hs : vm.Sane)
    (hclue : ∀ y ∈ clue, vm.stop = 0xffffffff ∧ fs.decodable = true ∧ fs.Moderate y ∧
      view vm.memory.byte base.toNat (fs.encode y).length = fs.encode y ∧
      base.toNat + (fs.encode y).length ≤ vm.top.toNat) :
    Works (unpackingTuple fs base) vm (clue.map fun y => fs.record + fs.footprint y) fun rec vm' =>
      rec = vm.top ∧ ∃ x, ((∀ y ∈ clue, x = y) ∧ fs.Moderate x) ∧ ∃ bs,
        fs.Holds true vm'.memory.byte vm.top.toNat x bs ∧ vm.Grows vm' ∧
        Fresh vm.top.toNat vm'.top.toNat (⟨vm.top.toNat, fs.record⟩ :: bs) := by
  have hs' : Vm.Sane { vm with reader := base } := ⟨hs.1, hs.2, hs.3, hs.4⟩
  have hmoved : vm.Grows { vm with reader := base } := ⟨le_rfl, fun _ _ _ => rfl, rfl, rfl, hs'⟩
  have h0 : (0 : UInt32).toNat = 0 := rfl
  have h := works_record (fun rec => unpackingParams fs rec base 0) id
    (k := clue.map fs.footprint) (l := clue.map fun y => fs.record + fs.footprint y)
    (R := fun x => (∀ y ∈ clue, x = y) ∧ fs.Moderate x) hsize hs' (fun vm₁ hb => ?_) fun j hj => ?_
  · refine ⟨fun rec vm' hrun => ?_, fun k hk => .update (f := fun vm => { vm with reader := base })
      rfl le_rfl (h.tries k hk)⟩
    obtain ⟨hrec, x, hx, bs, hholds, hgrows, hfresh⟩ := h.ends hrun
    exact ⟨hrec, x, hx, bs, hholds, hmoved.trans hgrows, hfresh⟩
  · have htop : vm₁.top.toNat = vm.top.toNat + fs.record := hb.top_eq
    have hfill := unpackingParams_works fs hcompact vm.top.toNat vm.top base 0 vm₁ clue hb.sane
      (by rw [h0]; omega) fun y hy => ?_
    · rwa [h0, Nat.add_zero] at hfill
    · obtain ⟨hstop, hdecodable, hmoderate, hview, hle⟩ := hclue y hy
      refine ⟨le_rfl, ⟨hb.sane, by omega, hb.stop_eq.trans hstop⟩, hdecodable, hmoderate, ?_⟩
      rw [hb.byte_eq, hb.reader_eq]
      exact ⟨_, .of_join hview hle⟩
  · obtain ⟨y, hy, rfl⟩ := Option.mem_map.1 hj
    exact ⟨_, Option.mem_map_of_mem _ hy, rfl⟩

/-- Whatever it is given, a run of the decoder that comes to an end has built a record of values in
blocks of its own. -/
theorem unpackingTuple_builds (hcompact : fs.compact = true)
    (hsize : fs.record < UInt32.size) (hs : vm.Sane)
    (h : (unpackingTuple fs base).run vm = .ok (rec, vm')) :
    rec = vm.top ∧ ∃ x bs, fs.Holds true vm'.memory.byte rec.toNat x bs ∧ fs.Moderate x ∧
      vm.Grows vm' ∧ Fresh vm.top.toNat vm'.top.toNat (⟨rec.toNat, fs.record⟩ :: bs) := by
  obtain ⟨rfl, x, ⟨-, hmoderate⟩, bs, hx, hgrows, hfresh⟩ :=
    (unpackingTuple_works base hcompact hsize none hs nofun).ends h
  exact ⟨rfl, x, bs, hx, hmoderate, hgrows, hfresh⟩

/-- Given the canonical encoding of a tuple anywhere below the end of the heap, the decoder builds a
record of its values; or it traps, and then there is no room for the record. -/
theorem unpackingTuple_rebuilds (hcompact : fs.compact = true) (hdecodable : fs.decodable = true)
    (hsize : fs.record < UInt32.size) {x : fs.Val} (hs : vm.Sane) (hstop : vm.stop = 0xffffffff)
    (hmoderate : fs.Moderate x)
    (hview : view vm.memory.byte base.toNat (fs.encode x).length = fs.encode x)
    (hle : base.toNat + (fs.encode x).length ≤ vm.top.toNat) :
    Tries (unpackingTuple fs base) vm (fs.record + fs.footprint x) fun rec vm' =>
      ∃ bs, fs.Holds true vm'.memory.byte rec.toNat x bs ∧ vm.Grows vm' ∧
        Fresh vm.top.toNat vm'.top.toNat (⟨rec.toNat, fs.record⟩ :: bs) := by
  have h := unpackingTuple_works base hcompact hsize (some x) hs fun y hy => ?_
  · refine (h.tries _ rfl).mono fun rec vm' hrun _ => ?_
    obtain ⟨rfl, y, ⟨hy, -⟩, hbuilt⟩ := h.ends hrun
    cases hy x rfl
    exact hbuilt
  · cases hy
    exact ⟨hstop, hdecodable, hmoderate, hview, hle⟩

end MoveCodec
