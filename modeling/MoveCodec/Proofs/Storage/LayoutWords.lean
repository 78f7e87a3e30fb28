import MoveCodec.Proofs.Storage.SlotWalk
import MoveCodec.Proofs.Storage.Verdicts

/-!
# Words and the layout

The layout of a struct type lists its words with their field paths. The words of a value are these,
in this order: each has the bytes of the value at its field path in the place that the layout gives,
and zeros around them.
-/
namespace MoveCodec

open Assembly Bytes
open List hiding Vector

/-! ## Names of fields -/

/-- Type arguments leave the names of fields alone. -/
theorem Registry.names_of_instantiate {d : StructDef} {args : List MoveType} {fields : List Field}
    (h : instantiate d args = .ok fields) : fields.map (·.name) = d.fields.map (·.name) := by
  rw [(instantiate_eq_ok.1 h).2, map_map]
  rfl

/-! ## Words in their places -/

/-- The bytes of a value in its word. Numbers have their most significant byte first. -/
def Form.payload : (form : Form) → form.Val → Bytes
  | .bool, (b : Bool) => ofNatBE 1 b.toNat
  | .int w, (x : BitVec _) => ofNatBE w.bytes x.toNat
  | .address, (x : Vector UInt8 20) => x.toList
  | .enum _, (i : Fin _) => ofNatBE 4 i
  | .bytes _, (x : Vector UInt8 _) => x.toList
  | .uid, (w : Word) => w.toList
  | .id, (w : Word) => w.toList
  | .string, _ | .vector _, _ | .struct _, _ => []

/-- Zeros in front of these bytes. -/
def Form.indent : Form → Nat
  | .bool => 31
  | .int w => 32 - w.bytes
  | .address => 12
  | .enum _ => 28
  | _ => 0

/-- A word is made up of zeros, the bytes of the value, and zeros. -/
theorem Form.toList_word_eq {form : Form} (hsingle : form.single = true) (x : form.Val)
    (hnarrow : form.Narrow x) : (form.word x).toList =
      List.replicate form.indent 0 ++ form.payload x ++
        List.replicate (32 - (form.indent + (form.payload x).length)) 0 := by
  rw [toList_word hsingle]
  cases form with
  | string | vector | struct => cases hsingle
  | bool =>
    have hlt : x.toNat < 256 ^ 1 := by cases x <;> decide
    simp only [encode, payload, indent, length_ofNatBE]
    rw [show (32 : Nat) = 31 + 1 from rfl, ofNatBE_of_lt hlt]
    simp
  | int w =>
    have hbytes : w.bytes ≤ 32 := by cases w <;> decide
    have hbits : 2 ^ w.bits = 256 ^ w.bytes := by cases w <;> decide
    have hlt : BitVec.toNat x < 256 ^ w.bytes := hbits ▸ x.isLt
    simp only [encode, payload, indent, length_ofNatBE, Nat.sub_add_cancel hbytes, Nat.sub_self,
      replicate_zero, append_nil]
    rw [← ofNatBE_of_lt hlt, Nat.sub_add_cancel hbytes]
  | address => simp [encode, payload, indent]
  | enum n =>
    rw [Narrow] at hnarrow
    have hlt : x.val < 256 ^ 4 := hnarrow
    simp only [encode, payload, indent, length_ofNatBE]
    rw [show (32 : Nat) = 28 + 4 from rfl, ofNatBE_of_lt hlt]
    simp
  | bytes n => simp [encode, payload, indent]
  | uid | id => simp [encode, payload, indent]

namespace Storage

/-- A part of a value that takes a word, with its field path. -/
structure Leaf where
  path : String
  type : MoveType
  form : Form
  value : form.Val

namespace Leaf

def word (l : Leaf) : Word := l.form.word l.value

def payload (l : Leaf) : Bytes := l.form.payload l.value

end Leaf

/-- The word shows the part in the place that the layout gives. -/
structure Cell.Shows (c : Cell) (l : Leaf) (w : Word) : Prop where
  path_eq : c.path = l.path
  type_eq : c.type = l.type
  size_eq : c.size = l.payload.length
  word_eq : w.toList = List.replicate c.offset 0 ++ l.payload ++
    List.replicate (32 - (c.offset + c.size)) 0

mutual

/-- The parts of a value that take words, depth first. -/
inductive Lists (r : Registry) : String → MoveType → (form : Form) → form.Val → List Leaf → Prop
  | word {path : String} {t : MoveType} {form : Form} (x : form.Val) : HasForm r t form →
      form.single = true → Lists r path t form x [⟨path, t, form, x⟩]
  | struct {path : String} {id : DefId} {args : List MoveType} {fields : List Field} {fs : Forms}
      {x : fs.Val} {ls : List Leaf} : r.fields id args = .ok fields → ListsAll r path fields fs x ls →
      Lists r path (.struct id args) (.struct fs) x ls

/-- The parts of the values of fields that take words. -/
inductive ListsAll (r : Registry) : String → List Field → (fs : Forms) → fs.Val → List Leaf → Prop
  | nil {path : String} {x : Forms.nil.Val} : ListsAll r path [] .nil x []
  | cons {path : String} {f : Field} {fields : List Field} {form : Form} {fs : Forms}
      {x : form.Val} {y : fs.Val} {ls ls' : List Leaf} :
      Lists r (path ++ "." ++ f.name) f.type form x ls → ListsAll r path fields fs y ls' →
      ListsAll r path (f :: fields) (.cons false form fs) (x, y) (ls ++ ls')

end

mutual

/-- The words of a value are those of its parts. -/
theorem words_of_lists {r : Registry} : ∀ {path : String} {t : MoveType} {form : Form} {x : form.Val}
    {ls : List Leaf}, Lists r path t form x ls → form.words x = ls.map Leaf.word
  | _, _, _, _, _, .word x _ hsingle => Form.words_single hsingle x
  | _, _, _, _, _, .struct _ h => words_of_listsAll h

theorem words_of_listsAll {r : Registry} : ∀ {path : String} {fields : List Field} {fs : Forms}
    {x : fs.Val} {ls : List Leaf}, ListsAll r path fields fs x ls → fs.words x = ls.map Leaf.word
  | _, _, _, _, _, .nil => rfl
  | _, _, _, _, _, .cons h hs => by
    rw [Forms.words, map_append, words_of_lists h, words_of_listsAll hs]

end

/-- The word of a part whose place in the layout is that of its form. -/
theorem shows_word {c : Cell} {l : Leaf} (hsingle : l.form.single = true)
    (hnarrow : l.form.Narrow l.value) (hpath : c.path = l.path) (htype : c.type = l.type)
    (hoffset : c.offset = l.form.indent) (hsize : c.size = l.payload.length) : c.Shows l l.word := by
  refine ⟨hpath, htype, hsize, ?_⟩
  rw [hoffset, hsize]
  exact Form.toList_word_eq hsingle l.value hnarrow

/-- The layout of a type is that of the parts of its values. -/
def LaidOut (r : Registry) (path : String) (t : MoveType) (form : Form) (cells : List Cell) : Prop :=
  form.flat = true ∧ ∀ x, form.Narrow x → ∃ ls, Lists r path t form x ls ∧
    List.Forall₂ (fun c l => c.Shows l l.word) cells ls

def AllLaidOut (r : Registry) (path : String) (fields : List Field) (fs : Forms)
    (cells : List Cell) : Prop :=
  fs.flat = true ∧ ∀ x, fs.Narrow x → ∃ ls, ListsAll r path fields fs x ls ∧
    List.Forall₂ (fun c l => c.Shows l l.word) cells ls

section

variable {r : Registry} {path : String} {t : MoveType} {form : Form}

/-- A type whose values take one word. -/
theorem laidOut_word {c : Cell} (hform : HasForm r t form) (hsingle : form.single = true)
    (hpath : c.path = path) (htype : c.type = t) (hoffset : c.offset = form.indent)
    (hsize : ∀ x, c.size = (form.payload x).length) : LaidOut r path t form [c] := by
  refine ⟨?_, fun x hnarrow => ⟨_, .word x hform hsingle, .cons ?_ .nil⟩⟩
  · cases form with
    | string | vector | struct => cases hsingle
    | _ => rfl
  · exact shows_word hsingle hnarrow hpath htype hoffset (hsize x)

theorem laidOut_tagged {d : StructDef} {args : List MoveType} {cells : List Cell}
    (hd : r.structOf d.id args = .ok d) (hform : HasForm r (.struct d.id args) form)
    (htag : d.tag ≠ .none) (h : (Shape.tagged d args).cells r path = .ok cells) :
    LaidOut r path (.struct d.id args) form cells := by
  unfold Shape.cells at h
  obtain ⟨hstring, -⟩ | ⟨n, hbytes, rfl⟩ | ⟨huid, rfl⟩ | ⟨hid, rfl⟩ := hform.of_tag hd htag
  · rw [hstring] at h
    cases h
  · rw [hbytes] at h
    cases h
    exact laidOut_word hform rfl rfl rfl rfl fun x => by simp [Form.payload]
  · rw [huid] at h
    cases h
    exact laidOut_word hform rfl rfl rfl rfl fun x => by simp [Form.payload]
  · rw [hid] at h
    cases h
    exact laidOut_word hform rfl rfl rfl rfl fun x => by simp [Form.payload]

end

mutual

theorem laidOut {r : Registry} : ∀ {s : Shape} {form : Form} {path : String} {cells : List Cell},
    s.Follows r → HasForm r s.type form → s.cells r path = .ok cells →
      LaidOut r path s.type form cells
  | .bool, _, _, _, _, hform, h => by
    rw [Shape.cells] at h
    cases h
    cases hform
    exact laidOut_word .bool rfl rfl rfl rfl fun x => by simp [Form.payload]
  | .int w, _, _, _, _, hform, h => by
    rw [Shape.cells] at h
    cases h
    cases hform
    exact laidOut_word (.int w) rfl rfl rfl rfl fun x => by simp [Form.payload]
  | .address, _, _, _, _, hform, h => by
    rw [Shape.cells] at h
    cases h
    cases hform
    exact laidOut_word .address rfl rfl rfl rfl fun x => by simp [Form.payload]
  | .enum d args, _, _, _, _, hform, h => by
    rw [Shape.cells] at h
    split at h
    · cases h
      cases hform with
      | enum hd hsimple =>
        exact laidOut_word (.enum hd hsimple) rfl rfl rfl rfl fun x => by simp [Form.payload]
    · cases h
  | .tagged d args, _, _, _, hfollows, hform, h =>
    laidOut_tagged hfollows.1 hform hfollows.2 h
  | .struct d args fields, _, _, _, hfollows, hform, h => by
    obtain ⟨fs, rfl, hforms⟩ := Shape.fields_of_struct hfollows hform
    obtain ⟨hd, -, ⟨gs, hgs, htypes⟩, hfollow, hnames⟩ := hfollows
    rw [Shape.cells] at h
    obtain ⟨hflat, hlists⟩ := allLaidOut hfollow htypes
      (hnames.trans (Registry.names_of_instantiate hgs).symm) (htypes ▸ hforms) h
    refine ⟨hflat, fun x hnarrow => ?_⟩
    rw [Form.Narrow] at hnarrow
    obtain ⟨ls, hls, hshows⟩ := hlists x hnarrow.2
    refine ⟨ls, .struct ?_ hls, hshows⟩
    rw [Registry.fields, hd]
    exact hgs
  | .vector _, _, _, _, _, _, h | .signer, _, _, _, _, _, h | .param _, _, _, _, _, _, h
  | .missing _ _, _, _, _, _, _, h | .broken _ _ _, _, _, _, _, _, h
  | .endless _ _, _, _, _, _, _, h => by
    rw [Shape.cells] at h
    cases h
  | .ref m t, _, _, _, _, _, h => by
    unfold Shape.cells at h
    split at h <;> cases h

theorem allLaidOut {r : Registry} : ∀ {fields : FieldShapes} {gs : List Field} {fs : Forms}
    {path : String} {cells : List Cell}, fields.Follow r →
      fields.types = gs.map (·.type) → fields.names = gs.map (·.name) →
      HaveForms r (gs.map (·.type)) fs → Shape.fieldCells r path fields = .ok cells →
      AllLaidOut r path gs fs cells
  | .nil, gs, _, _, _, _, htypes, _, hforms, h => by
    rw [Shape.fieldCells] at h
    cases h
    cases map_eq_nil_iff.1 htypes.symm
    cases hforms
    exact ⟨rfl, fun _ _ => ⟨[], .nil, .nil⟩⟩
  | .cons name s rest, gs, _, _, _, hfollow, htypes, hnames, hforms, h => by
    rw [Shape.fieldCells] at h
    obtain ⟨a, ha, h⟩ := bind_eq_ok h
    obtain ⟨b, hb, h⟩ := bind_eq_ok h
    cases h
    rw [FieldShapes.types] at htypes
    rw [FieldShapes.names] at hnames
    cases gs with
    | nil => cases htypes
    | cons g gs =>
      rw [map_cons, List.cons.injEq] at htypes hnames
      rw [map_cons] at hforms
      cases hforms with
      | cons hform hforms =>
        obtain ⟨hflat, hlists⟩ := laidOut hfollow.1 (htypes.1 ▸ hform) ha
        obtain ⟨hflats, hall⟩ := allLaidOut hfollow.2 htypes.2 hnames.2 hforms hb
        refine ⟨by rw [Forms.flat, hflat, hflats]; rfl, fun x hnarrow => ?_⟩
        rw [Forms.Narrow] at hnarrow
        obtain ⟨ls, hls, hshows⟩ := hlists x.1 hnarrow.1
        obtain ⟨ls', hls', hshows'⟩ := hall x.2 hnarrow.2
        rw [htypes.1, hnames.1] at hls
        exact ⟨ls ++ ls', .cons hls hls', rel_append hshows hshows'⟩

end

end Storage

end MoveCodec
