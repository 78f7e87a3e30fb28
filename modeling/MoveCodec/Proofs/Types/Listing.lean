import MoveCodec.Proofs.Types.AddressText
import MoveCodec.Proofs.Types.Histories

/-!
# The listing of definitions

Definitions are listed by the text of their module, then by index. The text tells modules apart, so
this order is strict on the definitions of a registry, and they have one listing.
-/
namespace MoveCodec

open List

/-- The place of a definition in a listing. -/
def DefId.place (id : DefId) : String ×ₗ Nat := toLex (id.home.render, id.index.toNat)

namespace Registry

variable {r : Registry}

/-- A struct without fields is added. -/
def Edit.bare (index : UInt16) : Edit := .struct { id := ⟨⟨Word.ofNat 7, "m"⟩, index⟩, name := "S" } 0

end Registry

end MoveCodec
