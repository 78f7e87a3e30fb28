import MoveCodec.Proofs.Codec.CanonicalPack
import MoveCodec.Proofs.Codec.UnpackFrame

/-!
# Packing and unpacking leave memory alone

A call of a packer that returns has changed nothing below the end of the heap but the place of the
head, and a call of an unpacker nothing at all. Of the globals only the end of the heap moves.
-/
namespace MoveCodec

open Machine

theorem Form.Holds.wide_eq {tight : Bool} {f : Nat → UInt8} {form : Form} {v : Value} {x : form.Val}
    {bs : List Block} (h : form.Holds tight f v x bs) : v.wide = form.wide := by
  cases form with
  | bool =>
    obtain ⟨rfl, -⟩ := h
    rfl
  | int width =>
    cases width with
    | w8 | w16 | w32 | w64 =>
      obtain ⟨rfl, -⟩ := h
      rfl
    | w128 | w256 =>
      obtain ⟨p, rfl, -⟩ := h
      rfl
  | enum | string | uid | id | struct =>
    obtain ⟨p, rest, rfl, -⟩ := h
    rfl
  | address | bytes | vector =>
    obtain ⟨p, rfl, -⟩ := h
    rfl

namespace Codec

open Wasm Assembly Prelude

variable {c : Context} {g : Generate FuncId} {t : MoveType} {a b : Assembly} {f : FuncId}

/-- What a generator asks first was answered. -/
theorem exists_of_lift {α β : Type} {x : Except Error α} {k : α → Generate β} {y : β}
    (h : (lift x >>= k).run a = .ok y b) : ∃ z, x = .ok z := by
  cases x with
  | ok z => exact ⟨z, rfl⟩
  | error e => cases h

theorem classed_of_pack (h : (pack c t).run a = .ok f b) :
    (c.registry.shape t).Classed c.registry := by
  obtain ⟨gen, hgen⟩ := packShape_eq c.registry (c.registry.shape t)
  rw [pack, hgen] at h
  exact Shape.classed_iff.2 (exists_of_lift h)

theorem classed_of_unpack (h : (unpack c t).run a = .ok f b) :
    (c.registry.shape t).Classed c.registry := by
  obtain ⟨gen, hgen⟩ := unpackShape_eq c.registry (c.registry.shape t)
  rw [unpack, hgen] at h
  exact Shape.classed_iff.2 (exists_of_lift h)

/-- A call that returned did so because the computation gives a result. -/
theorem Built.run_of_call (m : Built c g) {α : Type} {args vs : List Value} {comp : Compute α}
    {out : α → List Value} (h : Computes m.program m.func args comp out) {vm : Vm} {fuel : Nat}
    {store : Store} (hcall : m.call fuel args vm.store = ⟨.ok vs, store⟩) :
    ∃ x vm', comp.run vm = .ok (x, vm') ∧ store = vm'.store := by
  obtain ⟨n, hn⟩ := m.call_eq h vm
  obtain ⟨hok, herror⟩ := hn (max n fuel) (le_max_left ..)
  have hmore : m.call (max n fuel) args vm.store = ⟨.ok vs, store⟩ := by
    rw [call, invoke_of_le (congrArg Return.outcome hcall) (le_max_right ..)]
    exact hcall
  rw [hmore] at hok herror
  cases hrun : comp.run vm with
  | ok r => exact ⟨r.1, r.2, rfl, congrArg Return.store (hok _ _ hrun)⟩
  | error e => cases herror e hrun

/-- Of the globals only the end of the heap has changed, and below its old value no byte but the `n`
at `w`. -/
structure Keeps (w n : Nat) (vm : Vm) (store : Store) : Prop where
  global_eq : ∀ g ≠ heapTop.toNat, store.globals[g]? = vm.store.globals[g]?
  byte_eq : ∀ i < vm.top.toNat, i < w ∨ w + n ≤ i → store.memory.byte i = vm.memory.byte i

theorem keeps_of_eq {w n : Nat} {vm vm' : Vm} (hreader : vm'.reader = vm.reader)
    (hstop : vm'.stop = vm.stop)
    (hbyte : ∀ i < vm.top.toNat, i < w ∨ w + n ≤ i → vm'.memory.byte i = vm.memory.byte i) :
    Keeps w n vm vm'.store where
  global_eq g hg := by
    obtain ⟨g, rfl⟩ := Nat.exists_eq_succ_of_ne_zero hg
    simp [Vm.store, hreader, hstop]
  byte_eq := hbyte

/-- A call of a packer for a value in the heap, with room for its head beside it. -/
structure PackCall (form : Form) (vm : Vm) (x : form.Val) (v : Value) (w : UInt32) : Prop where
  sane : vm.Sane
  limited : vm.memory.limit ≤ 65535
  place_le : w.toNat + form.head ≤ vm.top.toNat
  held : ∃ bs, form.Holds false vm.memory.byte v x bs ∧ Below vm.top.toNat bs ∧
    Aside w.toNat form.head bs

/-- A packer that returns has written its head, and the tail behind the heap. -/
theorem PackCall.becomes {form : Form} {vm vm' : Vm} {x : form.Val} {v : Value} {w base : UInt32}
    (h : PackCall form vm x v w) (hrun : (packing form v w base).run vm = .ok ((), vm')) :
    vm.Becomes (form.piece x).tail.length (patch (patch vm.memory.byte w.toNat
      ((form.piece x).head (vm.top - base).toNat)) vm.top.toNat (form.piece x).tail) vm' := by
  obtain ⟨bs, hx, hbelow, haside⟩ := h.held
  have hwrites : Writes (packing form v w base) vm w.toNat _ _ :=
    packs form hx ⟨h.sane, hbelow, haside, h.place_le, .inr h.limited⟩
  obtain ⟨y, vm'', hrun', -, -, -, hb⟩ | ⟨⟨e, hrun'⟩, -⟩ := hwrites
  · rw [hrun] at hrun'
    cases hrun'
    exact hb
  · rw [hrun] at hrun'
    cases hrun'

theorem calls_keep_memory (hc : c.registry.Made) (t : MoveType) :
    (∀ m : Built c (pack c t), ∃ form n, HasForm c.registry t form ∧ c.registry.headSize t = .ok n ∧
      ∀ (vm : Vm) (x : form.Val) (v : Value) (w base : UInt32), PackCall form vm x v w →
        ∀ fuel vs store, m.call fuel [v, .i32 w, .i32 base] vm.store = ⟨.ok vs, store⟩ →
          Keeps w.toNat n.toNat vm store ∧
          (c.registry.isDynamic t = .ok false → store.globals = vm.store.globals ∧
            (form.encode x).length = n.toNat ∧
              store.memory.byte = patch vm.memory.byte w.toNat (form.encode x))) ∧
    (∀ (m : Built c (unpack c t)) (vm : Vm) (r base : UInt32), vm.Sane →
      ∀ fuel vs store, m.call fuel [.i32 r, .i32 base] vm.store = ⟨.ok vs, store⟩ →
        Keeps 0 0 vm store) := by
  refine ⟨fun m => ?_, fun m vm r base hs fuel vs store hcall => ?_⟩
  · have hclassed := classed_of_pack m.made
    obtain ⟨form, hform⟩ := hclassed.exists_form hc (Shape.follows_shape t)
    have hform' := hform
    rw [Shape.type_shape] at hform'
    obtain ⟨n, hn⟩ := hclassed.exists_headSize
    refine ⟨form, n, hform', hn, fun vm x v w base hp fuel vs store hcall => ?_⟩
    obtain rfl := Shape.headSize_eq (Shape.follows_shape t) hform hn
    have hhead : form.headWord.toNat = form.head :=
      toNat_ofNat_of_lt (by have := hp.place_le; have := vm.top.toNat_lt; omega)
    obtain ⟨bs, hx, -⟩ := hp.held
    have hpacker := m.serves hc (makes_pack (fun _ h => h) t) form hform'
    obtain ⟨_, vm', hrun, rfl⟩ := m.run_of_call (hpacker v w base hx.wide_eq) hcall
    have hb := hp.becomes hrun
    rw [hhead]
    refine ⟨keeps_of_eq hb.reader_eq hb.stop_eq fun i hi hout => ?_, fun hstatic => ?_⟩
    · rw [hb.byte_eq, patch_outside (.inl hi), patch_outside]
      rwa [Wire.Piece.length_head, form.width_piece]
    · have hd := (Shape.agrees_of_isDynamic (Shape.follows_shape t) hform hstatic).1
      have htail : (form.piece x).tail = [] := by simp [Wire.Piece.tail, hd]
      have hencode : (form.piece x).head (vm.top - base).toNat = form.encode x := by
        simp [Wire.Piece.head, hd]
      rw [htail, patch_nil, hencode] at hb
      have htop : vm'.top = vm.top := UInt32.toNat_inj.1 hb.top_eq
      refine ⟨?_, ?_, hb.byte_eq⟩
      · simp [Vm.store, hb.reader_eq, hb.stop_eq, htop]
      · rw [form.length_encode x hd, Form.head, hd]
        rfl
  · obtain ⟨form, hform⟩ := (classed_of_unpack m.made).exists_form hc (Shape.follows_shape t)
    rw [Shape.type_shape] at hform
    obtain ⟨hdecodable, hunpacker⟩ :=
      m.serves hc (makes_unpack (fun _ h => h) t) form hform
    obtain ⟨_, vm', hrun, rfl⟩ := m.run_of_call (hunpacker r base) hcall
    have hv := ((tame_unpacking form r base hdecodable).spares hs le_rfl hrun).2
    exact keeps_of_eq hv.reader_eq hv.stop_eq fun i hi _ => (hv.byte_eq i hi).symm

/-- A heap with place for a word, and something behind it. -/
def sampleHeap : Vm := .loaded (List.replicate 40 1) {}

theorem calls_keep_memory_sample :
    ∃ (m : Built { registry := {} } (pack { registry := {} } (.int .w64))) (vs : List Value)
      (store : Store), m.call 100 [.i64 5, .i32 320, .i32 320] sampleHeap.store = ⟨.ok vs, store⟩ ∧
        Keeps 320 32 sampleHeap store ∧
        store.memory.byte = patch sampleHeap.memory.byte 320 (Form.encode (.int .w64) 5) := by
  have hreturns : ((Built.build? { registry := {} } (pack { registry := {} } (.int .w64))
      "sample" {} {}).any fun m =>
        (m.call 100 [.i64 5, .i32 320, .i32 320] sampleHeap.store).outcome.isOk) = true := by
    decide +kernel
  obtain ⟨m, -, hm⟩ := (Option.any_eq_true _ _).1 hreturns
  cases hcall : m.call 100 [.i64 5, .i32 320, .i32 320] sampleHeap.store with
  | mk outcome store =>
    rw [hcall] at hm
    cases outcome with
    | error e => cases hm
    | ok vs =>
      obtain ⟨form, n, hform, hn, h⟩ := (calls_keep_memory .empty (.int .w64)).1 m
      cases hform
      cases hn
      have hp : PackCall (.int .w64) sampleHeap 5 (.i64 5) 320 :=
        ⟨Vm.sane_loaded {} (by decide), by decide, by decide, [], ⟨rfl, rfl⟩, by simp [Below],
          by simp [Aside]⟩
      obtain ⟨hkeeps, hstatic⟩ := h _ _ _ _ _ hp _ _ _ hcall
      exact ⟨m, vs, store, hcall, hkeeps, (hstatic rfl).2.2⟩

end Codec

end MoveCodec
