import MoveCodec.Assembly.Draft
import MoveCodec.Proofs.Wasm.Renumber
import Mathlib.Data.List.Forall2

/-!
# Final numbers

Linking puts imports before definitions and keeps the order of either. `finalIndex` is the number
that a function gets in this way; it permutes the numbers of the functions. `Draft.linked` is the
module that linking gives, and `link_eq_ok` says when it does.
-/
namespace MoveCodec.Assembly

open Wasm List

variable {α β : Type} {b : Bool} {e : Entry} {index : List UInt32} {types : List FuncType}
  {funcs : List Entry} {d : Draft} {f : FuncId} {R : α → β → Prop} {i : Nat}

/-! ## Computations that succeed -/

theorem bind_eq_ok {ε : Type} {x : Except ε α} {f : α → Except ε β} {b : β}
    (h : x >>= f = .ok b) : ∃ a, x = .ok a ∧ f a = .ok b := by
  cases x with
  | error e => cases h
  | ok a => exact ⟨a, rfl, h⟩

section

variable {f : α → Except Error β} {x : α} {xs : List α} {y : β} {ys : List β}

theorem mapM_cons_eq_ok (h : (x :: xs).mapM f = .ok ys) :
    ∃ y zs, f x = .ok y ∧ xs.mapM f = .ok zs ∧ ys = y :: zs := by
  rw [mapM_cons] at h
  obtain ⟨y, hx, h⟩ := bind_eq_ok h
  obtain ⟨zs, hxs, h⟩ := bind_eq_ok h
  cases h
  exact ⟨y, zs, hx, hxs, rfl⟩

theorem mapM_eq_ok : xs.mapM f = .ok ys ↔ List.Forall₂ (fun x y => f x = .ok y) xs ys := by
  constructor
  · intro h
    induction xs generalizing ys with
    | nil =>
      cases h
      exact .nil
    | cons x xs ih =>
      obtain ⟨y, zs, hx, hxs, rfl⟩ := mapM_cons_eq_ok h
      exact .cons hx (ih hxs)
  · intro h
    induction h with
    | nil => rfl
    | cons hx _ ih =>
      rw [mapM_cons, hx, ih]
      rfl

theorem exists_mem_of_forall₂ (h : List.Forall₂ R xs ys) (hy : y ∈ ys) : ∃ x ∈ xs, R x y := by
  obtain ⟨i, hi, rfl⟩ := mem_iff_getElem.1 hy
  exact ⟨_, getElem_mem (h.length_eq ▸ hi), h.get _ hi⟩

theorem exists_of_mapM_eq_ok (h : xs.mapM f = .ok ys) (hy : y ∈ ys) : ∃ x ∈ xs, f x = .ok y :=
  exists_mem_of_forall₂ (R := fun x y => f x = .ok y) (mapM_eq_ok.1 h) hy

theorem exists_mapM_eq_ok : (∃ ys, xs.mapM f = .ok ys) ↔ ∀ x ∈ xs, ∃ y, f x = .ok y := by
  induction xs with
  | nil => simp [pure, Except.pure]
  | cons x xs ih =>
    rw [forall_mem_cons, ← ih]
    constructor
    · rintro ⟨ys, h⟩
      obtain ⟨y, zs, hx, hxs, -⟩ := mapM_cons_eq_ok h
      exact ⟨⟨y, hx⟩, zs, hxs⟩
    · rintro ⟨⟨y, hx⟩, zs, hxs⟩
      exact ⟨y :: zs, by rw [mapM_cons, hx, hxs]; rfl⟩

theorem exists_getElem?_of_forall₂ (h : List.Forall₂ R xs ys) (hx : xs[i]? = some x) :
    ∃ y, ys[i]? = some y ∧ R x y := by
  obtain ⟨hi, rfl⟩ := List.getElem?_eq_some_iff.1 hx
  exact ⟨_, getElem?_eq_getElem (h.length_eq ▸ hi), h.get hi _⟩

theorem forall₂_and_eq {P : α → Prop} {g : α → β} :
    List.Forall₂ (fun x y => P x ∧ y = g x) xs ys ↔ (∀ x ∈ xs, P x) ∧ ys = xs.map g := by
  constructor
  · intro h
    induction h with
    | nil => exact ⟨forall_mem_nil _, rfl⟩
    | cons hx _ ih =>
      exact ⟨forall_mem_cons.2 ⟨hx.1, ih.1⟩, by rw [ih.2, hx.2, map_cons]⟩
  · rintro ⟨h, rfl⟩
    rw [forall₂_map_right_iff, forall₂_same]
    exact fun x hx => ⟨h x hx, rfl⟩

end

/-! ## Imports first -/

/-- The number of the `i`-th function once imports stand before definitions; `imports` tells of each
function whether it is an import. -/
def finalIndex (imports : List Bool) (i : Nat) : Nat :=
  if imports[i]? = some true then (imports.take i).count true
  else imports.count true + (imports.take i).count false

section

variable {imports : List Bool} {i j : Nat}

theorem count_take_lt (hi : imports[i]? = some b) (hij : i < j) :
    (imports.take i).count b < (imports.take j).count b := by
  have hstep : (imports.take (i + 1)).count b = (imports.take i).count b + 1 := by
    rw [take_add_one, hi, count_append]
    simp
  have hinit : imports.take (i + 1) <+: imports.take j := take_prefix_take_left (by omega)
  have hle := hinit.sublist.count_le b
  omega

theorem count_take_lt_count (hi : imports[i]? = some b) :
    (imports.take i).count b < imports.count b := by
  have hlt := (List.getElem?_eq_some_iff.1 hi).1
  have h := count_take_lt hi hlt
  rwa [take_length] at h

theorem finalIndex_import (hi : imports[i]? = some true) :
    finalIndex imports i = (imports.take i).count true := if_pos hi

theorem finalIndex_definition (hi : imports[i]? = some false) :
    finalIndex imports i = imports.count true + (imports.take i).count false :=
  if_neg (by simp [hi])

/-- Imports stand before definitions. -/
theorem finalIndex_import_lt (hi : imports[i]? = some true) (hj : imports[j]? = some false) :
    finalIndex imports i < finalIndex imports j := by
  have hcount := count_take_lt_count hi
  rw [finalIndex_import hi, finalIndex_definition hj]
  omega

/-- Functions of one kind keep their order. -/
theorem finalIndex_lt_of_lt (hi : imports[i]? = some b) (hj : imports[j]? = some b)
    (hij : i < j) : finalIndex imports i < finalIndex imports j := by
  have hcount := count_take_lt hi hij
  cases b with
  | true => rwa [finalIndex_import hi, finalIndex_import hj]
  | false =>
    rw [finalIndex_definition hi, finalIndex_definition hj]
    omega

theorem exists_kind (hi : i < imports.length) : ∃ b, imports[i]? = some b :=
  ⟨_, getElem?_eq_getElem hi⟩

theorem finalIndex_lt (hi : i < imports.length) : finalIndex imports i < imports.length := by
  have hsum := count_true_add_count_false imports
  obtain ⟨b, hb⟩ := exists_kind hi
  have hcount := count_take_lt_count hb
  cases b with
  | true =>
    rw [finalIndex_import hb]
    omega
  | false =>
    rw [finalIndex_definition hb]
    omega

theorem finalIndex_ne (hj : j < imports.length) (hij : i < j) :
    finalIndex imports i ≠ finalIndex imports j := by
  obtain ⟨b, hb⟩ := exists_kind (hij.trans hj)
  obtain ⟨c, hc⟩ := exists_kind hj
  cases b with
  | true =>
    cases c with
    | true => exact (finalIndex_lt_of_lt hb hc hij).ne
    | false => exact (finalIndex_import_lt hb hc).ne
  | false =>
    cases c with
    | true => exact (finalIndex_import_lt hc hb).ne'
    | false => exact (finalIndex_lt_of_lt hb hc hij).ne

/-- Final numbers are the old ones in another order. -/
theorem finalIndex_bijOn (imports : List Bool) :
    Set.BijOn (finalIndex imports) (Set.Iio imports.length) (Set.Iio imports.length) := by
  rw [← Finset.coe_Iio]
  have hmaps : Set.MapsTo (finalIndex imports) (Finset.Iio imports.length)
      (Finset.Iio imports.length) := by
    intro i hi
    rw [Finset.coe_Iio] at hi ⊢
    exact finalIndex_lt hi
  have hinj : Set.InjOn (finalIndex imports) (Finset.Iio imports.length) := by
    intro i hi j hj hij
    rw [Finset.coe_Iio] at hi hj
    rcases Nat.lt_trichotomy i j with hlt | rfl | hgt
    · exact absurd hij (finalIndex_ne hj hlt)
    · rfl
    · exact absurd hij.symm (finalIndex_ne hi hgt)
  exact ⟨hmaps, hinj, Finset.surjOn_of_injOn_of_card_le _ hmaps hinj le_rfl⟩

end

/-! ## Numbers of a draft -/

/-- The imports among functions, or the definitions. -/
def ofKind (b : Bool) (funcs : List Entry) : List Entry := funcs.filter fun e => e.isImport == b

namespace Draft

def kinds (d : Draft) : List Bool := d.funcs.map Entry.isImport

/-- The functions in the order of their final numbers. -/
def ordered (d : Draft) : List Entry := ofKind true d.funcs ++ ofKind false d.funcs

def number (d : Draft) (f : FuncId) : UInt32 := ((indices d.funcs)[f.toNat]?).getD f

theorem length_kinds (d : Draft) : d.kinds.length = d.funcs.length := length_map _

theorem length_ofKind (d : Draft) (b : Bool) : (ofKind b d.funcs).length = d.kinds.count b := by
  rw [kinds, count_eq_countP, countP_map, countP_eq_length_filter]
  rfl

theorem length_ordered (d : Draft) : d.ordered.length = d.funcs.length := by
  rw [ordered, length_append, d.length_ofKind, d.length_ofKind,
    count_true_add_count_false, d.length_kinds]

theorem getElem?_ofKind (he : d.funcs[i]? = some e) :
    (ofKind e.isImport d.funcs)[(d.kinds.take i).count e.isImport]? = some e := by
  obtain ⟨hi, rfl⟩ := List.getElem?_eq_some_iff.1 he
  generalize hb : d.funcs[i].isImport = b
  have hsplit : ofKind b d.funcs =
      ofKind b (d.funcs.take i) ++ d.funcs[i] :: ofKind b (d.funcs.drop (i + 1)) := by
    rw [ofKind, ofKind, ofKind, ← filter_cons_of_pos (by simp [hb]), ← filter_append,
      ← drop_eq_getElem_cons, take_append_drop]
  have hcount : (d.kinds.take i).count b = (ofKind b (d.funcs.take i)).length := by
    rw [kinds, ← map_take, count_eq_countP, countP_map,
      countP_eq_length_filter]
    rfl
  rw [hsplit, hcount, getElem?_append_right le_rfl, Nat.sub_self, getElem?_cons_zero]

/-- What stands in order of final numbers is found for each function under its own. -/
theorem getElem?_ordered (he : d.funcs[i]? = some e) :
    d.ordered[finalIndex d.kinds i]? = some e := by
  have hkind : d.kinds[i]? = some e.isImport := by simp [kinds, he]
  have hlt := count_take_lt_count hkind
  have hat := getElem?_ofKind he
  cases himport : e.isImport with
  | true =>
    rw [himport] at hkind hlt hat
    rw [finalIndex_import hkind, ordered, getElem?_append_left (by rwa [d.length_ofKind]), hat]
  | false =>
    rw [himport] at hkind hat
    rw [finalIndex_definition hkind, ordered, ← d.length_ofKind,
      getElem?_append_right (Nat.le_add_right _ _), Nat.add_sub_cancel_left, hat]

theorem getElem?_indices_go (funcs : List Entry) (nextImport nextDefined i : Nat) :
    (indices.go nextImport nextDefined funcs)[i]? = (funcs[i]?).map fun e =>
      UInt32.ofNat (if e.isImport = true
        then nextImport + ((funcs.map Entry.isImport).take i).count true
        else nextDefined + ((funcs.map Entry.isImport).take i).count false) := by
  induction funcs generalizing nextImport nextDefined i with
  | nil => simp [indices.go]
  | cons e rest ih =>
    rw [indices.go]
    cases i with
    | zero => cases he : e.isImport <;> simp [he]
    | succ i => cases he : e.isImport <;> simp [he, ih, Nat.add_assoc, Nat.add_comm 1]

/-- The numbers that linking gives are the final ones. -/
theorem getElem?_indices (d : Draft) (i : Nat) :
    (indices d.funcs)[i]?
      = if i < d.funcs.length then some (UInt32.ofNat (finalIndex d.kinds i)) else none := by
  have hcount : (d.funcs.filter Entry.isImport).length = d.kinds.count true := by
    rw [← d.length_ofKind]
    simp [ofKind]
  unfold indices
  rw [getElem?_indices_go, hcount]
  split
  · rename_i hi
    have hat : d.kinds[i]? = some d.funcs[i].isImport := by
      simp [kinds, getElem?_eq_getElem hi]
    rw [getElem?_eq_getElem hi, Option.map_some, finalIndex, hat, Nat.zero_add]
    simp [kinds]
  · rename_i hi
    rw [getElem?_eq_none (by omega), Option.map_none]

theorem length_indices (d : Draft) : (indices d.funcs).length = d.funcs.length := by
  refine Nat.le_antisymm ?_ ?_
  · have h := d.getElem?_indices d.funcs.length
    rw [if_neg (by omega)] at h
    exact List.getElem?_eq_none_iff.1 h
  · by_contra hlt
    have h := d.getElem?_indices (indices d.funcs).length
    rw [if_pos (by omega), getElem?_eq_none le_rfl] at h
    cases h

theorem number_eq (hf : f.toNat < d.funcs.length) :
    d.number f = UInt32.ofNat (finalIndex d.kinds f.toNat) := by
  rw [number, getElem?_indices, if_pos hf, Option.getD_some]

theorem toNat_number (hsize : d.funcs.length ≤ UInt32.size) (hf : f.toNat < d.funcs.length) :
    (d.number f).toNat = finalIndex d.kinds f.toNat := by
  have hlt := finalIndex_lt (d.length_kinds ▸ hf)
  rw [d.length_kinds] at hlt
  rw [number_eq hf, UInt32.toNat_ofNat_of_lt' (by omega)]

theorem getElem?_number (hsize : d.funcs.length ≤ UInt32.size) (f : FuncId) :
    d.ordered[(d.number f).toNat]? = d.funcs[f.toNat]? := by
  by_cases hf : f.toNat < d.funcs.length
  · rw [toNat_number hsize hf, getElem?_eq_getElem hf]
    exact getElem?_ordered (getElem?_eq_getElem hf)
  · rw [number, getElem?_indices, if_neg hf, Option.getD_none,
      getElem?_eq_none (Nat.le_of_not_lt hf),
      getElem?_eq_none (by rw [length_ordered]; omega)]

end Draft

/-! ## Types -/

/-- Types with those that are new at the end, and the number of each. -/
def internAll (types : List FuncType) : List FuncType → List FuncType × List UInt32
  | [] => (types, [])
  | t :: ts =>
    ((internAll (Module.addType types t).2 ts).1,
      (Module.addType types t).1 :: (internAll (Module.addType types t).2 ts).2)

theorem Module.addType_spec (types : List FuncType) (t : FuncType) :
    types <+: (Module.addType types t).2 ∧
      (Module.addType types t).2.length ≤ types.length + 1 ∧
      ((Module.addType types t).2.length ≤ UInt32.size →
        (Module.addType types t).2[(Module.addType types t).1.toNat]? = some t) := by
  unfold Module.addType
  split
  · rename_i i hi
    obtain ⟨hlt, heq, -⟩ := findIdx?_eq_some_iff_getElem.1 hi
    refine ⟨prefix_rfl, by simp, fun hsize => ?_⟩
    have hnum : (UInt32.ofNat i).toNat = i :=
      UInt32.toNat_ofNat_of_lt' (Nat.lt_of_lt_of_le hlt hsize)
    simp only [hnum]
    rw [getElem?_eq_getElem hlt]
    simpa using heq
  · refine ⟨prefix_append _ _, by simp, fun hsize => ?_⟩
    have hnum : (UInt32.ofNat types.length).toNat = types.length :=
      UInt32.toNat_ofNat_of_lt' (by simp at hsize; omega)
    simp [hnum]

theorem isPrefix_internAll (types ts : List FuncType) : types <+: (internAll types ts).1 := by
  induction ts generalizing types with
  | nil => exact prefix_rfl
  | cons t ts ih => exact (Module.addType_spec types t).1.trans (ih _)

theorem length_internAll_le (types ts : List FuncType) :
    (internAll types ts).1.length ≤ types.length + ts.length := by
  induction ts generalizing types with
  | nil => exact Nat.le_refl _
  | cons t ts ih =>
    have hadd := (Module.addType_spec types t).2.1
    exact (ih _).trans (by rw [length_cons]; omega)

/-- Each type is found under its number. -/
theorem getElem?_internAll {ts all : List FuncType} (hall : (internAll types ts).1 <+: all)
    (hsize : all.length ≤ UInt32.size) :
    List.Forall₂ (fun t k => all[UInt32.toNat k]? = some t) ts (internAll types ts).2 := by
  induction ts generalizing types with
  | nil => exact .nil
  | cons t ts ih =>
    have hgrow := (isPrefix_internAll (Module.addType types t).2 ts).trans hall
    have hat := (Module.addType_spec types t).2.2 (hgrow.length_le.trans hsize)
    obtain ⟨more, rfl⟩ := hgrow
    exact .cons (by rw [getElem?_append_left (List.getElem?_eq_some_iff.1 hat).1, hat])
      (ih hall)

/-! ## What linking gives -/

/-- A function is complete and calls only the first `count` functions. -/
def Entry.Linkable (count : Nat) : Entry → Prop
  | .imported .. => True
  | .defined _ _ _ body finished =>
    finished = true ∧ ∀ f, Instr.op (.call f) ∈ body → f.toNat < count

/-- A function of the linked module as it was written in the draft. -/
def Entry.func (σ : UInt32 → UInt32) : Entry → Func (List Instr)
  | .imported .. => ⟨[], []⟩
  | .defined _ _ locals body _ => ⟨Draft.localRuns locals, body.map (Instr.renumber σ)⟩

/-- An import of the linked module, with a type of the given number. -/
def Entry.import (k : UInt32) : Entry → Import
  | .imported home name _ => ⟨home, name, k⟩
  | .defined .. => ⟨"", "", k⟩

/-- An export whose function has another number. -/
def Export.renumber (σ : UInt32 → UInt32) (e : Export) : Export :=
  if e.kind = Wasm.exportFunc then { e with index := σ e.index } else e

@[simp] theorem Export.kind_renumber (σ : UInt32 → UInt32) (e : Export) :
    (Export.renumber σ e).kind = e.kind := by
  unfold Export.renumber
  split <;> rfl

theorem mapM_eq_ok_map {f : α → Except Error β} {P : α → Prop} {g : α → β} {xs : List α}
    {ys : List β} (h : ∀ x y, f x = .ok y ↔ P x ∧ y = g x) :
    xs.mapM f = .ok ys ↔ (∀ x ∈ xs, P x) ∧ ys = xs.map g := by
  simp only [mapM_eq_ok, h, forall₂_and_eq]

theorem relocate_eq_ok {owner : String} {body body' : List Instr} :
    Draft.relocate index owner body = .ok body' ↔
      (∀ f, Instr.op (.call f) ∈ body → f.toNat < index.length) ∧
        body' = body.map (Instr.renumber fun f => (index[f.toNat]?).getD f) := by
  refine (mapM_eq_ok_map (P := fun i => ∀ f, i = .op (.call f) → f.toNat < index.length)
    fun i i' => ?_).trans (and_congr_left fun _ => ?_)
  · split
    · rename_i f
      by_cases hf : f.toNat < index.length
      · simp [Instr.renumber, Op.renumber, hf, @eq_comm _ i']
      · simp [hf]
    · rename_i hcall
      have hsame : i.renumber (fun f => (index[f.toNat]?).getD f) = i := by
        cases i with
        | op o =>
          cases o with
          | call f => exact absurd rfl (hcall f)
          | _ => rfl
        | _ => rfl
      rw [hsame, Except.ok.injEq, @eq_comm _ i']
      exact (and_iff_right fun f hf => absurd hf (hcall f)).symm
  · exact ⟨fun h f hf => h _ hf f rfl, fun h i hi f hf => h f (hf ▸ hi)⟩

theorem linkExport_eq_ok {e e' : Export} :
    Draft.linkExport index e = .ok e' ↔
      (e.kind = Wasm.exportFunc → e.index.toNat < index.length) ∧
        e' = Export.renumber (fun f => (index[f.toNat]?).getD f) e := by
  unfold Draft.linkExport Export.renumber
  by_cases hkind : e.kind = Wasm.exportFunc
  · by_cases hin : e.index.toNat < index.length
    · simp [hkind, hin, @eq_comm _ e']
    · simp [hkind, hin]
  · simp [hkind, @eq_comm _ e']

theorem linkImports_eq (types : List FuncType) (funcs : List Entry) :
    Draft.linkImports types funcs =
      let interned := internAll types ((ofKind true funcs).map Entry.type)
      (interned.1, List.zipWith Entry.import interned.2 (ofKind true funcs)) := by
  induction funcs generalizing types with
  | nil => rfl
  | cons e rest ih =>
    cases e with
    | imported =>
      simp [Draft.linkImports, ih, ofKind, Entry.isImport, internAll, Entry.type, Entry.import]
    | defined => simp [Draft.linkImports, ih, ofKind, Entry.isImport]

theorem linkFuncs_eq_ok {r : List FuncType × List UInt32 × List (Func (List Instr))} :
    Draft.linkFuncs index types funcs = .ok r ↔ (∀ e ∈ funcs, e.Linkable index.length) ∧
      r = let interned := internAll types ((ofKind false funcs).map Entry.type)
        (interned.1, interned.2,
          (ofKind false funcs).map (Entry.func fun f => (index[f.toNat]?).getD f)) := by
  induction funcs generalizing types r with
  | nil => simp [Draft.linkFuncs, internAll, ofKind, @eq_comm _ r]
  | cons e rest ih =>
    rw [forall_mem_cons]
    cases e with
    | imported => simp [Draft.linkFuncs, Entry.Linkable, ofKind, Entry.isImport, ih]
    | defined name t locals body finished =>
      cases finished with
      | false => exact ⟨fun h => (by cases h), fun h => (by cases h.1.1.1)⟩
      | true =>
        constructor
        · intro h
          obtain ⟨body', hbody, h⟩ := bind_eq_ok h
          obtain ⟨q, hrest, h⟩ := bind_eq_ok h
          obtain ⟨hcalls, rfl⟩ := relocate_eq_ok.1 hbody
          obtain ⟨hall, rfl⟩ := ih.1 hrest
          cases h
          exact ⟨⟨⟨rfl, hcalls⟩, hall⟩, rfl⟩
        · rintro ⟨⟨⟨-, hcalls⟩, hall⟩, rfl⟩
          simp only [Draft.linkFuncs, relocate_eq_ok.2 ⟨hcalls, rfl⟩, ih.2 ⟨hall, rfl⟩]
          rfl

/-- The module that linking gives. -/
def Draft.linked (d : Draft) : Module (List Instr) :=
  let imports := internAll [] ((ofKind true d.funcs).map Entry.type)
  let funcs := internAll imports.1 ((ofKind false d.funcs).map Entry.type)
  { types := funcs.1
    imports := List.zipWith Entry.import imports.2 (ofKind true d.funcs)
    funcs := funcs.2
    code := (ofKind false d.funcs).map (Entry.func d.number)
    exports := d.exports.map (Export.renumber d.number)
    memories := d.memory.toList
    globals := d.globals
    data := d.data
    names := some ⟨d.name, linkNames (indices d.funcs) d.funcs⟩ }

/-- A draft links unless a function is incomplete, or a call or an export has an unknown number. -/
theorem link_eq_ok {m : Module (List Instr)} :
    d.link = .ok m ↔ ((∀ e ∈ d.funcs, e.Linkable d.funcs.length) ∧
      ∀ e ∈ d.exports, e.kind = Wasm.exportFunc → e.index.toNat < d.funcs.length) ∧
      m = d.linked := by
  have hexports {exports : List Export} := @mapM_eq_ok_map _ _ _ _ _ d.exports exports
    fun x y => @linkExport_eq_ok (Draft.indices d.funcs) x y
  rw [← d.length_indices]
  constructor
  · intro h
    obtain ⟨q, hfuncs, h⟩ := bind_eq_ok h
    obtain ⟨exports, hlinked, h⟩ := bind_eq_ok h
    obtain ⟨hlinkable, rfl⟩ := linkFuncs_eq_ok.1 hfuncs
    obtain ⟨hknown, rfl⟩ := hexports.1 hlinked
    cases h
    refine ⟨⟨hlinkable, hknown⟩, ?_⟩
    rw [linkImports_eq]
    rfl
  · rintro ⟨⟨hlinkable, hknown⟩, rfl⟩
    simp only [Draft.link, linkFuncs_eq_ok.2 ⟨hlinkable, rfl⟩, hexports.2 ⟨hknown, rfl⟩,
      linkImports_eq]
    rfl

theorem exists_link_eq_ok :
    (∃ m, d.link = .ok m) ↔ (∀ e ∈ d.funcs, e.Linkable d.funcs.length) ∧
      ∀ e ∈ d.exports, e.kind = Wasm.exportFunc → e.index.toNat < d.funcs.length :=
  ⟨fun ⟨_, h⟩ => (link_eq_ok.1 h).1, fun h => ⟨_, link_eq_ok.2 ⟨h, rfl⟩⟩⟩

theorem forall₂_import {R : Entry → UInt32 → Prop} {es : List Entry} {ks : List UInt32}
    (h : List.Forall₂ R es ks) :
    List.Forall₂ (fun e i => i = e.import i.type ∧ R e i.type) es
      (List.zipWith Entry.import ks es) := by
  induction h with
  | nil => exact .nil
  | @cons e k _ _ hk _ ih =>
    have htype : (e.import k).type = k := by cases e <;> rfl
    exact .cons (by rw [htype]; exact ⟨rfl, hk⟩) ih

section

variable (hsize : d.funcs.length ≤ UInt32.size)

include hsize

theorem length_types_linked_le : d.linked.types.length ≤ UInt32.size := by
  refine le_trans ?_ (d.length_ordered ▸ hsize)
  have himports := length_internAll_le [] ((ofKind true d.funcs).map Entry.type)
  have hfuncs := length_internAll_le (internAll [] ((ofKind true d.funcs).map Entry.type)).1
    ((ofKind false d.funcs).map Entry.type)
  rw [length_nil, length_map] at himports
  rw [length_map] at hfuncs
  rw [Draft.ordered, length_append]
  exact hfuncs.trans (by omega)

theorem forall₂_imports : List.Forall₂
    (fun e i => i = e.import i.type ∧ d.linked.types[i.type.toNat]? = some e.type)
    (ofKind true d.funcs) d.linked.imports := by
  have h := getElem?_internAll (isPrefix_internAll _ _) (length_types_linked_le hsize)
  exact forall₂_import (forall₂_map_left_iff.1 h)

theorem forall₂_funcs : List.Forall₂ (fun e k => d.linked.types[UInt32.toNat k]? = some e.type)
    (ofKind false d.funcs) d.linked.funcs :=
  forall₂_map_left_iff.1
    (getElem?_internAll prefix_rfl (length_types_linked_le hsize))

theorem forall₂_ordered : List.Forall₂
    (fun e k => d.linked.types[UInt32.toNat k]? = some e.type) d.ordered
    (d.linked.imports.map (·.type) ++ d.linked.funcs) := by
  refine rel_append ?_ (forall₂_funcs hsize)
  exact forall₂_map_right_iff.2 ((forall₂_imports hsize).imp fun _ _ h => h.2)

/-- A function has its own type under its final number. -/
theorem typeOf?_linked (he : d.funcs[f.toNat]? = some e) :
    d.linked.typeOf? (d.number f) = some e.type := by
  obtain ⟨k, hk, htype⟩ := exists_getElem?_of_forall₂ (forall₂_ordered hsize)
    ((Draft.getElem?_number hsize f).trans he)
  rw [Module.typeOf?, hk]
  exact htype

end

theorem mem_linkNames {n : UInt32} {s : String} :
    (n, s) ∈ Draft.linkNames (Draft.indices d.funcs) d.funcs ↔
      ∃ i e, d.funcs[i]? = some e ∧ e.isImport = false ∧ e.name = s ∧
        n = UInt32.ofNat (finalIndex d.kinds i) := by
  unfold Draft.linkNames
  simp only [mem_filterMap, Prod.exists]
  constructor
  · rintro ⟨k, e, hmem, hname⟩
    obtain ⟨i, hi⟩ := mem_iff_getElem?.1 hmem
    obtain ⟨hindex, he⟩ := getElem?_zip_eq_some.1 hi
    rw [Draft.getElem?_indices, if_pos (List.getElem?_eq_some_iff.1 he).1] at hindex
    split at hname
    · cases hname
    · rename_i himport
      cases hname
      exact ⟨i, e, he, by simpa using himport, rfl, (Option.some.inj hindex).symm⟩
  · rintro ⟨i, e, he, himport, rfl, rfl⟩
    have hindex := d.getElem?_indices i
    rw [if_pos (List.getElem?_eq_some_iff.1 he).1] at hindex
    refine ⟨_, e, mem_iff_getElem?.2 ⟨i, getElem?_zip_eq_some.2 ⟨hindex, he⟩⟩, ?_⟩
    exact if_neg (by simp [himport])

end MoveCodec.Assembly
