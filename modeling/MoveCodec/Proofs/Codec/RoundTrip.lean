import MoveCodec.Proofs.Codec.DecodedValues

/-!
# Decoding undoes encoding

The decoder rebuilds the values of a tuple from their canonical encoding, and the encoder makes the
same encoding of what was rebuilt.
-/
namespace MoveCodec

open Machine Machine.Compute

/-! ## Values that lie tight -/

/-- The blocks `cs` are not above the blocks `bs`. -/
def Covers (bs cs : List Block) : Prop := ∀ H, Below H bs → Below H cs

section

variable {f : Nat → UInt8} {bs : List Block} {wide : Bool}

theorem covers_cons {b : Block} {cs : List Block} (h : Covers bs cs) : Covers (b :: bs) (b :: cs) := by
  intro H hH
  rw [below_cons] at hH ⊢
  exact ⟨hH.1, h H hH.2⟩

theorem covers_append {bs' cs cs' : List Block} (h : Covers bs cs) (h' : Covers bs' cs') :
    Covers (bs ++ bs') (cs ++ cs') := by
  intro H hH
  rw [below_append] at hH ⊢
  exact ⟨h H hH.1, h' H hH.2⟩

theorem Row.loosen {α : Type} {holds holds' : Value → α → List Block → Prop} {a : Nat}
    {xs : List α} (h : Row f wide holds a xs bs)
    (helem : ∀ v x here, holds v x here → ∃ there, holds' v x there ∧ Covers here there) :
    ∃ cs, Row f wide holds' a xs cs ∧ Covers bs cs := by
  induction xs generalizing a bs with
  | nil => exact ⟨bs, h, fun _ h => h⟩
  | cons x xs ih =>
    obtain ⟨here, rest, hx, hxs, rfl⟩ := h
    obtain ⟨there, hx', hcovers⟩ := helem _ x here hx
    obtain ⟨cs, hxs', hcovers'⟩ := ih hxs
    exact ⟨there ++ cs, ⟨there, cs, hx', hxs', rfl⟩, covers_append hcovers hcovers'⟩

theorem VectorAt.loosen {α : Type} {holds holds' : Value → α → List Block → Prop} {a : Nat}
    {xs : List α} (h : VectorAt true f wide holds a xs bs)
    (helem : ∀ v x here, holds v x here → ∃ there, holds' v x there ∧ Covers here there) :
    ∃ cs, VectorAt false f wide holds' a xs cs ∧ Covers bs cs := by
  obtain ⟨hlen, -, rest, hrow, rfl⟩ := h
  obtain ⟨cs, hrow', hcovers⟩ := hrow.loosen helem
  exact ⟨_, ⟨hlen, nofun, cs, hrow', rfl⟩, covers_cons hcovers⟩

theorem CellAt.loosen {holds holds' : Value → List Block → Prop} {v : Value}
    (h : CellAt f wide holds v bs)
    (hcell : ∀ v here, holds v here → ∃ there, holds' v there ∧ Covers here there) :
    ∃ cs, CellAt f wide holds' v cs ∧ Covers bs cs := by
  obtain ⟨p, rest, rfl, hrest, rfl⟩ := h
  obtain ⟨cs, hrest', hcovers⟩ := hcell _ rest hrest
  exact ⟨_, ⟨p, cs, rfl, hrest', rfl⟩, covers_cons hcovers⟩

end

mutual

/-- What lies tight lies well enough to be packed. -/
theorem Form.Holds.loosen {f : Nat → UInt8} : ∀ {form : Form} {v : Value} {x : form.Val}
    {bs : List Block}, form.Holds true f v x bs → ∃ cs, form.Holds false f v x cs ∧ Covers bs cs
  | .bool, _, _, bs, h | .int _, _, _, bs, h | .address, _, _, bs, h | .enum _, _, _, bs, h
  | .uid, _, _, bs, h | .id, _, _, bs, h => by
    rw [Form.Holds] at h
    exact ⟨bs, by rwa [Form.Holds], fun _ h => h⟩
  | .bytes n, v, (x : Vector UInt8 n), bs, h => by
    rw [Form.Holds, if_pos rfl] at h
    obtain ⟨p, rfl, hview, rfl⟩ := h
    rw [List.length_append, view_add] at hview
    have hx := (List.append_inj hview (by simp)).1
    refine ⟨[⟨p.toNat, x.toList.length⟩], ?_, fun H hH => ?_⟩
    · rw [Form.Holds, if_neg Bool.false_ne_true, List.append_nil]
      exact ⟨p, rfl, hx, rfl⟩
    · simp only [below_cons, List.length_append] at hH ⊢
      exact ⟨by omega, below_nil⟩
  | .string, _, (x : Bytes), _, h => by
    rw [Form.Holds] at h
    obtain ⟨cs, hat, hcovers⟩ := CellAt.loosen h fun v here ⟨p, hv, hvec⟩ =>
      have ⟨there, hvec', hcovers⟩ := VectorAt.loosen hvec fun v x here hx =>
        ⟨here, hx, fun _ h => h⟩
      ⟨there, (⟨p, hv, hvec'⟩ : ∃ p : UInt32, v = .i32 p ∧
        VectorAt false f false _ p.toNat x there), hcovers⟩
    exact ⟨cs, by rw [Form.Holds]; exact hat, hcovers⟩
  | .vector e, _, _, _, h => by
    rw [Form.Holds] at h
    obtain ⟨p, rfl, hvec⟩ := h
    obtain ⟨cs, hvec', hcovers⟩ := VectorAt.loosen hvec fun v x here hx =>
      Form.Holds.loosen hx
    exact ⟨cs, by rw [Form.Holds]; exact ⟨p, rfl, hvec'⟩, hcovers⟩
  | .struct fields, _, _, _, h => by
    rw [Form.Holds] at h
    obtain ⟨p, rest, rfl, hx, rfl⟩ := h
    obtain ⟨cs, hx', hcovers⟩ := Forms.Holds.loosen hx
    exact ⟨_, by rw [Form.Holds]; exact ⟨p, cs, rfl, hx', rfl⟩, covers_cons hcovers⟩

theorem Forms.Holds.loosen {f : Nat → UInt8} : ∀ {fs : Forms} {a : Nat} {x : fs.Val}
    {bs : List Block}, fs.Holds true f a x bs → ∃ cs, fs.Holds false f a x cs ∧ Covers bs cs
  | .nil, _, _, bs, h => by
    rw [Forms.Holds] at h
    exact ⟨bs, by rwa [Forms.Holds], fun _ h => h⟩
  | .cons boxed form fs, _, _, _, h => by
    rw [Forms.Holds] at h
    obtain ⟨here, rest, hx, hxs, rfl⟩ := h
    obtain ⟨cs, hxs', hcovers'⟩ := Forms.Holds.loosen hxs
    cases boxed with
    | true =>
      rw [if_pos rfl] at hx
      obtain ⟨there, hx', hcovers⟩ := CellAt.loosen hx fun v here hx => Form.Holds.loosen hx
      refine ⟨there ++ cs, ?_, covers_append hcovers hcovers'⟩
      rw [Forms.Holds]
      exact ⟨there, cs, by rwa [if_pos rfl], hxs', rfl⟩
    | false =>
      rw [if_neg Bool.false_ne_true] at hx
      obtain ⟨there, hx', hcovers⟩ := Form.Holds.loosen hx
      refine ⟨there ++ cs, ?_, covers_append hcovers hcovers'⟩
      rw [Forms.Holds]
      exact ⟨there, cs, by rwa [if_neg Bool.false_ne_true], hxs', rfl⟩

end

namespace Codec

open Assembly

theorem TupleForms.unique {r : Registry} {ts : List MoveType} {fs gs : Forms}
    (h : TupleForms r ts fs) (h' : TupleForms r ts gs) : fs = gs := by
  induction h generalizing gs with
  | nil =>
    cases h'
    rfl
  | value hf _ ih =>
    cases h' with
    | value hg hgs => rw [hf.unique hg, ih hgs]
    | ref => cases hf
  | ref hf _ ih =>
    cases h' with
    | value hg => cases hg
    | ref hg hgs => rw [hf.unique hg, ih hgs]

/-- A call of an encoder on a record that holds `x`: it gives the old end of the heap, where the
length and the canonical encoding now stand; or it traps, and then there is no space for them. -/
def Repacks {fs : Forms} (x : fs.Val) (vm : Vm) (r : Return) : Prop :=
  (r.outcome = .ok [.i32 vm.top] ∧ ∃ vm' : Vm, r.store = vm'.store ∧
    vm.Becomes (4 + (fs.encode x).length) (patch vm.memory.byte vm.top.toNat
      (Bytes.ofNatLE 4 (fs.encode x).length ++ fs.encode x)) vm') ∨
  ((∃ t, r.outcome = .error (.trap t)) ∧ vm.space < vm.top.toNat + (4 + (fs.encode x).length))

/-- A call of a decoder on the canonical encoding of `x`: it gives a record that holds `x`, in
blocks that were allocated during the call, and the encoder `k` packs that record into the same
encoding; or it traps, and then there is no space for the blocks. -/
def Restores {c : Context} {ts : List MoveType} (k : Built c (packValues c ts)) {fs : Forms}
    (x : fs.Val) (vm : Vm) (r : Return) : Prop :=
  (∃ (rec : UInt32) (vm' : Vm) (bs : List Block), r = ⟨.ok [.i32 rec], vm'.store⟩ ∧
    fs.Holds true vm'.memory.byte rec.toNat x bs ∧ vm.Grows vm' ∧
    Fresh vm.top.toNat vm'.top.toNat (⟨rec.toNat, fs.record⟩ :: bs) ∧
    ∃ n, ∀ fuel, n ≤ fuel → Repacks x vm' (k.call fuel [.i32 rec] vm'.store)) ∨
  ((∃ t, r.outcome = .error (.trap t)) ∧
    vm.space < vm.top.toNat + (fs.record + fs.footprint x))

theorem unpackValues_packValues {c : Context} (hc : c.registry.Made) {ts : List MoveType}
    (hts : ∀ t ∈ ts, ByValue c.registry t) (m : Built c (unpackValues c ts))
    (k : Built c (packValues c ts)) :
    ∃ fs, TupleForms c.registry ts fs ∧ (fs.small = true → fs.record < UInt32.size →
      ∀ (vm : Vm) (base : UInt32) (x : fs.Val), vm.Sane → vm.stop = 0xffffffff → fs.Moderate x →
        view vm.memory.byte base.toNat (fs.encode x).length = fs.encode x →
        base.toNat + (fs.encode x).length ≤ vm.top.toNat →
        ∃ n, ∀ fuel, n ≤ fuel → Restores k x vm (m.call fuel [.i32 base] vm.store)) := by
  obtain ⟨fs, hfs, hdecodable, hunpacks⟩ :=
    m.serves hc (makes_unpackValues hc (fun _ h => h) ts) hts
  obtain ⟨gs, hgs, hpacks⟩ := k.serves hc (makes_packValues hc (fun _ h => h) ts)
  obtain rfl := hfs.unique hgs
  refine ⟨fs, hfs, fun hsmall hsize vm base x hs hstop hmoderate hview hle => ?_⟩
  obtain ⟨n, hn⟩ := m.call_eq (hunpacks base) vm
  refine ⟨n, fun fuel hfuel => ?_⟩
  obtain ⟨hok, herror⟩ := hn fuel hfuel
  rcases unpackingTuple_rebuilds (hfs.compact hsmall) hdecodable hsize hs hstop hmoderate hview hle
    with ⟨rec, vm', hrun, -, -, bs, hx, hgrows, hfresh⟩ | ⟨⟨t, hrun⟩, hspace⟩
  · refine .inl ⟨rec, vm', bs, hok _ _ hrun, hx, hgrows, hfresh, ?_⟩
    -- What was decoded lies below the new end of the heap, so the encoder can read it there.
    obtain ⟨cs, hx', hcovers⟩ := hx.loosen
    have hbelow := hfresh.below
    rw [below_cons] at hbelow
    obtain ⟨n', hn'⟩ := k.call_eq (hpacks rec) vm'
    refine ⟨n', fun fuel' hfuel' => ?_⟩
    obtain ⟨hok', herror'⟩ := hn' fuel' hfuel'
    have hlength : 4 + (fs.encode x).length < 4294967296 := by
      have hmod : (fs.encode x).length % 32 = 0 := Wire.length_join_mod (fs.length_pieces_mod x)
      have htop := vm.top.toNat_lt
      omega
    rcases attempts_packingTuple hgrows.sane hx' hbelow.1 (hcovers _ hbelow.2) (.inl hlength) with
      ⟨p, vm'', hrun', -, -, rfl, hb⟩ | ⟨⟨t, hrun'⟩, hspace⟩
    · rw [hok' _ _ hrun']
      exact .inl ⟨rfl, vm'', rfl, hb⟩
    · exact .inr ⟨⟨t, herror' _ hrun'⟩, hspace⟩
  · exact .inr ⟨⟨t, herror _ hrun⟩, hspace⟩

theorem unpackValues_packValues_sample :
    ∃ (m : Built { registry := {} } (unpackValues { registry := {} } sampleTypes))
      (k : Built { registry := {} } (packValues { registry := {} } sampleTypes)),
      ∃ n, ∀ fuel, n ≤ fuel →
        @Restores _ _ k (.cons false (.int .w64) (.cons false (.vector (.int .w128)) .nil))
          (7, [5], ()) (.loaded sampleCall {})
          (m.call fuel [.i32 320] (Vm.loaded sampleCall {}).store) := by
  obtain ⟨fs, hfs, h⟩ := unpackValues_packValues .empty byValue_sampleTypes sampleUnpacker samplePacker
  obtain rfl := forms_of_sampleTypes hfs
  have hlength : sampleCall.length ≤ 65000 := by simp [length_sampleCall]
  have htop := Vm.toNat_top_loaded {} hlength
  refine ⟨_, _, h (by decide) (by decide) _ 320 (7, [5], ()) (Vm.sane_loaded {} hlength) rfl ?_ ?_ ?_⟩
  · exact ⟨trivial, ⟨by decide, fun _ _ => trivial⟩, trivial⟩
  · rw [Vm.byte_loaded {} hlength]
    decide +kernel
  · rw [htop]
    decide +kernel

end Codec

end MoveCodec
