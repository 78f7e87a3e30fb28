import MoveCodec.Package.Run
import MoveCodec.Proofs.Package.Dispatch
import MoveCodec.Proofs.Wasm.Decode

/-!
# Compiled packages on the simulated host

The module of a package keeps to the rules, its exports are told apart and its data fits the first
page. Whether the simulated host accepts it depends on the build options alone: host functions must
be imported under the name of that host, and memory must stay within what any memory can have.
-/
namespace MoveCodec

open List

variable {e : Engine} {i : Nat} {l : Limits} {memory : Memory} {o : Options} {r r' : Registry}
  {α : Type}

/-! ## Short modules -/

namespace Wasm

def Names.listed (n : Names) : Bytes :=
  Binary.name "name" ++ (if n.home = "" then [] else Binary.sectionOf 0 (Binary.name n.home)) ++
    Binary.entries 1 Names.function n.functions

end Wasm

/-! ## Instantiation -/

namespace Machine

open Wasm Assembly

end Machine

/-! ## What is compiled -/

open Wasm Assembly Machine Prelude Codec

namespace Manifest

/-- The bound on memory is not below its initial size. -/
theorem pages_le {m : Manifest} (h : m.check = .ok ()) (hmax : m.options.maxPages ≠ 0) :
    m.options.pages ≤ m.options.maxPages := by
  have hbuild := (check_eq_ok h).1 hmax
  have hmax : m.build.maxPages ≠ 0 := hmax
  change (if m.build.pages = 0 then 1 else m.build.pages) ≤ m.build.maxPages
  split_ifs
  · rw [ne_eq, ← UInt32.toNat_inj] at hmax
    exact UInt32.le_iff_toNat_le.2 (Nat.one_le_iff_ne_zero.2 hmax)
  · exact hbuild

end Manifest

/-- A compiled package follows its options. -/
structure Artifact.Follows (a : Artifact) (o : Options) : Prop where
  memories : a.module.memories = [⟨o.pages, if o.maxPages = 0 then none else some o.maxPages⟩]
  data : a.module.data = reservedData o
  imports : ∀ i ∈ a.module.imports, i.home = o.host ∧ ∃ f, HostFunc.ofName? i.name = some f ∧
    a.module.types[i.type.toNat]? = some ⟨List.replicate f.arity .i32, []⟩
  kinds : ∀ x ∈ a.module.exports, x.kind = exportFunc ∨
    x.kind = exportMemory ∧ x.index.toNat < a.module.memories.length
  nodup : (a.module.exports.map (·.name)).Nodup
  exports : a.exports.Nodup ∧ ∀ name ∈ a.exports, ∃ x ∈ a.module.exports,
    x.name = name ∧ x.kind = exportFunc

namespace Package

variable {p : Package} {config : CompileOptions} {a : Artifact}

/-- A package whose memory can grow to all there is. -/
def roomy : String :=
  "[package]\nname = \"shop\"\n[build]\nmemory-pages = 2\nmax-memory-pages = 65536\n" ++
  "[[function]]\nname = \"get_value\"\n"

end Package

end MoveCodec
