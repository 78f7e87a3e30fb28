import MoveCodec.Proofs.Codec.Modules
import MoveCodec.Proofs.Codec.PackSpec

/-!
# Packed tuples are canonical

The function for packing a record writes the canonical encoding of its values behind the length of
the encoding, unless memory cannot grow that far.
-/
namespace MoveCodec.Codec

open Assembly Machine Prelude Bytes

/-- A call that packs the values `x` of a record: it gives the old end of the heap, where the
length and the canonical encoding now stand, and nothing else has changed below the new end; or it
traps, and then there is no room for the encoding. -/
def PacksTo {fs : Forms} (x : fs.Val) (vm : Vm) (r : Return) : Prop :=
  (r.outcome = .ok [.i32 vm.top] ∧ ∃ vm' : Vm, r.store = vm'.store ∧
    vm.Becomes (4 + (fs.encode x).length) (patch vm.memory.byte vm.top.toNat
      (ofNatLE 4 (fs.encode x).length ++ fs.encode x)) vm') ∨
  ((∃ t, r.outcome = .error (.trap t)) ∧ vm.room < vm.top.toNat + 4 + (fs.encode x).length)

theorem packValues_canonical {c : Context} (hc : c.registry.Made) {ts : List MoveType}
    (m : Built c (packValues c ts)) :
    ∃ fs, TupleForms c.registry ts fs ∧
      ∀ (vm : Vm) (x : fs.Val) (rec : UInt32) (bs : List Block), vm.Sane →
        vm.memory.limit ≤ 65535 → fs.Holds false vm.memory.byte rec.toNat x bs →
        rec.toNat + fs.record ≤ vm.top.toNat → Below vm.top.toNat bs →
        ∃ n, ∀ fuel, n ≤ fuel → PacksTo x vm (m.call fuel [.i32 rec] vm.store) := by
  obtain ⟨fs, hfs, hcomputes⟩ := m.serves hc (makes_packValues hc (fun _ h => h) ts)
  refine ⟨fs, hfs, fun vm x rec bs hs hlimit hx hrec hbs => ?_⟩
  obtain ⟨n, hn⟩ := m.call_eq (hcomputes rec) vm
  refine ⟨n, fun fuel hfuel => ?_⟩
  obtain ⟨hok, herror⟩ := hn fuel hfuel
  rcases packingTuple_ends hs hx hrec hbs hlimit with ⟨vm', hrun, hb⟩ | ⟨⟨t, hrun⟩, hroom⟩
  · rw [hok _ _ hrun]
    exact .inl ⟨rfl, vm', rfl, hb⟩
  · exact .inr ⟨⟨t, herror _ hrun⟩, hroom⟩

/-- A record with the number 7 and a vector that holds the number 5. -/
def sampleRecord : Bytes :=
  ofNatLE 8 7 ++ ofNatLE 4 332 ++
    ofNatLE 4 1 ++ ofNatLE 4 1 ++ ofNatLE 4 344 ++ ofNatLE 16 5

/-- The types of the record, and of all that a module packs. -/
def sampleTypes : List MoveType := [.int .w64, .vector (.int .w128)]

theorem forms_of_sampleTypes {fs : Forms} (h : TupleForms {} sampleTypes fs) :
    fs = .cons false (.int .w64) (.cons false (.vector (.int .w128)) .nil) := by
  cases h with | value hf hfs =>
  cases hf
  cases hfs with | value hf hfs =>
  cases hf with | vector hf =>
  cases hf
  cases hfs
  rfl

def samplePacker : Built { registry := {} } (packValues { registry := {} } sampleTypes) :=
  (Built.build? _ _ "sample" {} {}).get (by decide +kernel)

theorem packValues_canonical_sample :
    ∃ m : Built { registry := {} } (packValues { registry := {} } sampleTypes),
      ∃ n, ∀ fuel, n ≤ fuel →
        @PacksTo (.cons false (.int .w64) (.cons false (.vector (.int .w128)) .nil))
          (7, [5], ()) (.loaded sampleRecord {})
          (m.call fuel [.i32 320] (Vm.loaded sampleRecord {}).store) := by
  obtain ⟨fs, hfs, h⟩ := packValues_canonical .empty samplePacker
  obtain rfl := forms_of_sampleTypes hfs
  have hlength : sampleRecord.length ≤ 65000 := by decide
  have htop := Vm.toNat_top_loaded {} hlength
  refine ⟨samplePacker, h _ (7, [5], ()) 320 [⟨332, 12⟩, ⟨344, 16⟩] (Vm.sane_loaded {} hlength)
    (by decide) ?_ ?_ ?_⟩
  · rw [Vm.byte_loaded {} hlength]
    exact ⟨[], _, ⟨by decide, rfl⟩, ⟨_, _, ⟨332, by decide, by decide,
      by decide, _, ⟨_, _, ⟨344, by decide, by decide, rfl⟩, rfl, rfl⟩,
      rfl⟩, rfl, rfl⟩, rfl⟩
  · rw [htop]
    decide
  · rw [htop]
    simp [Below, Block.stop, sampleRecord]

end MoveCodec.Codec
