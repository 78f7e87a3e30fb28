import MoveCodec.Proofs.Manifest.Scopes
import MoveCodec.Proofs.Package.Dispatch

/-!
# The order of declarations

Declarations are numbered in the order they stand in and refer to each other by number. Another
order inside the sections of a manifest gives the definitions other numbers and changes nothing
else: the same manifests are resolved, names keep their meaning, and interfaces and storage layouts
stay as they are.
-/
namespace MoveCodec

open List

open Assembly (bind_eq_ok mapM_cons_eq_ok exists_of_mapM_eq_ok)

variable {α β δ : Type} {d : StructDecl} {id : DefId} {name kind : String} {first : UInt16} {l : Local}
  {home : ModuleId} {f : Renaming} {g : α → Except Error β}

/-! ## Lists in another order -/

/-- A list without repetitions and another order of it differ by a permutation of its members. -/
theorem exists_perm_map [DecidableEq α] {xs ys : List α} (hperm : xs.Perm ys)
    (hnodup : xs.Nodup) : ∃ π : Equiv.Perm α, xs.map π = ys ∧ ∀ a ∉ xs, π a = a := by
  induction hperm with
  | nil => exact ⟨1, rfl, fun _ _ => rfl⟩
  | cons x _ ih =>
    obtain ⟨hx, hrest⟩ := nodup_cons.1 hnodup
    obtain ⟨π, hmap, hfix⟩ := ih hrest
    refine ⟨π, by rw [map_cons, hfix x hx, hmap], fun a ha => hfix a ?_⟩
    exact fun hmem => ha (mem_cons_of_mem x hmem)
  | swap x y l =>
    obtain ⟨hy, hrest⟩ := nodup_cons.1 hnodup
    have hx : x ∉ l := (nodup_cons.1 hrest).1
    have hy' : y ∉ l := fun hmem => hy (mem_cons_of_mem x hmem)
    have hl : l.map (Equiv.swap x y) = l := by
      refine (map_congr_left fun a ha => ?_).trans l.map_id
      exact Equiv.swap_apply_of_ne_of_ne (fun h => hx (h ▸ ha)) (fun h => hy' (h ▸ ha))
    refine ⟨Equiv.swap x y, ?_, fun a ha => ?_⟩
    · rw [map_cons, map_cons, Equiv.swap_apply_left, Equiv.swap_apply_right, hl]
    · rw [mem_cons, mem_cons, not_or, not_or] at ha
      exact Equiv.swap_apply_of_ne_of_ne ha.2.1 ha.1
  | trans h₁ _ ih₁ ih₂ =>
    obtain ⟨π, rfl, hfix⟩ := ih₁ hnodup
    obtain ⟨ρ, rfl, hfix'⟩ := ih₂ (h₁.nodup_iff.1 hnodup)
    refine ⟨π.trans ρ, by rw [map_map]; rfl, fun a ha => ?_⟩
    rw [Equiv.trans_apply, hfix a ha, hfix' a fun hmem => ha (h₁.mem_iff.2 hmem)]

/-- A computation over a list gives the same results in every order. -/
theorem InStep.mapM_perm {xs ys : List α} (h : xs.Perm ys) :
    InStep (fun zs ws => (xs.zip zs).Perm (ys.zip ws) ∧ zs.Perm ws) (xs.mapM g) (ys.mapM g) := by
  induction h with
  | nil => exact .ok ⟨.refl _, .refl _⟩
  | cons x _ ih =>
    rw [mapM_cons, mapM_cons]
    refine .bind (.refl (g x)) fun b _ hb => .bind ih fun zs ws ⟨hzip, hperm⟩ => .ok ?_
    subst hb
    exact ⟨hzip.cons _, hperm.cons b⟩
  | swap x y l =>
    rw [mapM_cons, mapM_cons, mapM_cons, mapM_cons]
    cases g x with
    | error e =>
      cases g y with
      | error e' => exact .error _ _
      | ok b => exact .error _ _
    | ok a =>
      cases g y with
      | error e' => exact .error _ _
      | ok b =>
        cases l.mapM g with
        | error e => exact .error _ _
        | ok zs => exact .ok ⟨.swap (x, a) (y, b) _, .swap a b zs⟩
  | trans _ _ ih₁ ih₂ =>
    exact ih₁.trans ih₂ fun _ _ _ h₁ h₂ => ⟨h₁.1.trans h₂.1, h₁.2.trans h₂.2⟩

theorem mapM_bind {γ : Type} {k : β → Except Error γ} {xs : List α} {ys : List β}
    (h : xs.mapM g = .ok ys) : xs.mapM (fun x => g x >>= k) = ys.mapM k := by
  induction xs generalizing ys with
  | nil =>
    cases h
    rfl
  | cons x xs ih =>
    obtain ⟨y, ys', hx, hxs, rfl⟩ := mapM_cons_eq_ok h
    rw [mapM_cons, mapM_cons, ih hxs, hx]
    rfl

/-! ## Definitions under other numbers -/

theorem StructDef.Checked.rename {d : StructDef} (h : d.Checked) : (d.rename f).Checked := by
  refine ⟨?_, fun hevent => ?_⟩
  · simpa only [StructDef.rename, Registry.checkFields_rename] using h.bound
  · simpa only [StructDef.rename, length_map] using h.topics hevent

theorem EnumDef.Checked.rename {d : EnumDef} (h : d.Checked) : (d.rename f).Checked := by
  refine ⟨?_, fun v hv => ?_⟩
  · simpa only [EnumDef.rename, ne_eq, map_eq_nil_iff] using h.variants_ne
  · obtain ⟨w, hw, rfl⟩ := mem_map.1 hv
    simpa only [EnumDef.rename, Variant.rename, Registry.checkFields_rename] using h.bound w hw

/-- Definitions in another order are found under their other numbers. -/
theorem find?_rename {key : δ → DefId} {g : δ → δ} {π : Equiv.Perm DefId}
    {xs ys : List δ} (hperm : (xs.map g).Perm ys) (hnodup : (ys.map key).Nodup)
    (hkey : ∀ d, key (g d) = π (key d)) (id : DefId) :
    ys.find? (fun y => key y == π id) = (xs.find? (fun x => key x == id)).map g := by
  cases h : xs.find? (fun x => key x == id) with
  | none =>
    rw [Option.map_none, find?_eq_none]
    intro y hy
    obtain ⟨x, hx, rfl⟩ := mem_map.1 (hperm.mem_iff.2 hy)
    have hne := find?_eq_none.1 h x hx
    rw [beq_iff_eq] at hne ⊢
    rwa [hkey, π.apply_eq_iff_eq]
  | some d =>
    have hid : key d = id := by simpa using find?_some h
    have hmem : g d ∈ ys := hperm.mem_iff.1 (mem_map_of_mem (mem_of_find?_eq_some h))
    have hsome : (ys.find? (fun y => key y == π id)).isSome = true :=
      find?_isSome.2 ⟨g d, hmem, beq_iff_eq.2 (by rw [hkey, hid])⟩
    obtain ⟨y, hy⟩ := Option.isSome_iff_exists.1 hsome
    have hy' : key y = π id := by simpa using find?_some hy
    rw [hy, Option.map_some]
    refine congrArg some (inj_on_of_nodup_map hnodup (mem_of_find?_eq_some hy) hmem ?_)
    rw [hy', hkey, hid]

theorem Framework.identifier_mem_base : identifier ∈ base.structs.map (·.id) := by decide

theorem Framework.field_types_base : ∀ d ∈ base.structs, ∀ q ∈ d.fields,
    q.type = .address ∨ q.type = .struct identifier [] ∨ q.type = .vector .u8 := by
  decide

theorem Registry.isSome_findStruct? {r : Registry} :
    (r.findStruct? id).isSome = true ↔ id ∈ r.structs.map (·.id) := by
  simp [findStruct?]

theorem Registry.isSome_findEnum? {r : Registry} :
    (r.findEnum? id).isSome = true ↔ id ∈ r.enums.map (·.id) := by
  simp [findEnum?]

/-! ## Names and numbers -/

namespace Manifest

variable {m m' : Manifest}

/-- The names, kinds and arities of the declarations, in the order of their numbers. -/
def decls (m : Manifest) : List (String × Bool × Int) :=
  m.structs.map (fun d => (d.name, false, d.arity)) ++
    m.enums.map (fun d => (d.name, true, d.arity)) ++
    m.errors.map (fun d => (d.name, false, 0)) ++ m.events.map (fun d => (d.name, false, 0))

/-- No two declarations have one name. -/
def Distinct (m : Manifest) : Prop := (m.decls.map (·.1)).Nodup

theorem takeName_eq_ok {taken taken' : Names} (h : takeName kind name taken = .ok taken') :
    name ∉ taken.map (·.1) ∧ taken' = (name, kind) :: taken := by
  unfold takeName at h
  split at h
  · cases h
  · split at h
    · cases h
    · rename_i hfresh
      cases h
      refine ⟨fun hmem => ?_, rfl⟩
      obtain ⟨⟨_, k⟩, hk, rfl⟩ := mem_map.1 hmem
      have := lookup_eq_none_iff.1 hfresh _ hk
      simp at this

/-- A section takes the names of its declarations, which are new and differ from each other. -/
theorem nodup_of_foldlM {check : Names → δ → Except Error Names} {ds : List δ}
    {taken taken' : Names} (h : ds.foldlM check taken = .ok taken')
    (htaken : (taken.map (·.1)).Nodup) (name : δ → String)
    (hcheck : ∀ {taken d taken'}, check taken d = .ok taken' →
      takeName kind (name d) taken = .ok taken') :
    (taken'.map (·.1)).Nodup ∧ (taken'.map (·.1)).Perm (taken.map (·.1) ++ ds.map name) := by
  induction ds generalizing taken with
  | nil =>
    cases h
    exact ⟨htaken, by rw [map_nil, append_nil]⟩
  | cons d ds ih =>
    rw [foldlM_cons] at h
    obtain ⟨next, hd, h⟩ := bind_eq_ok h
    obtain ⟨hfresh, rfl⟩ := takeName_eq_ok (hcheck hd)
    obtain ⟨hnodup, hperm⟩ := ih h (nodup_cons.2 ⟨hfresh, htaken⟩)
    refine ⟨hnodup, hperm.trans ?_⟩
    rw [map_cons, map_cons, cons_append]
    exact perm_middle.symm

section

variable {taken taken' : Names}

theorem checkStruct_takes (h : checkStruct taken d = .ok taken') :
    takeName "struct" d.name taken = .ok taken' := by
  obtain ⟨next, hnext, h⟩ := bind_eq_ok h
  dsimp only at h
  split at h
  · cases h
  · obtain ⟨_, -, h⟩ := bind_eq_ok h
    cases h
    exact hnext

theorem checkEnum_takes {d : EnumDecl} (h : checkEnum taken d = .ok taken') :
    takeName "enum" d.name taken = .ok taken' := by
  obtain ⟨next, hnext, h⟩ := bind_eq_ok h
  dsimp only at h
  split at h
  · cases h
  split at h
  · cases h
  · obtain ⟨_, -, h⟩ := bind_eq_ok h
    cases h
    exact hnext

theorem checkError_takes (h : checkError taken d = .ok taken') :
    takeName "error" d.name taken = .ok taken' := by
  obtain ⟨next, hnext, h⟩ := bind_eq_ok h
  dsimp only at h
  split at h
  · cases h
  · obtain ⟨_, -, h⟩ := bind_eq_ok h
    cases h
    exact hnext

theorem checkEvent_takes {d : EventDecl} (h : checkEvent taken d = .ok taken') :
    takeName "event" d.name taken = .ok taken' := by
  obtain ⟨next, hnext, h⟩ := bind_eq_ok h
  dsimp only at h
  split at h
  · cases h
  · obtain ⟨_, -, h⟩ := bind_eq_ok h
    cases h
    exact hnext

end

/-- Names of accepted manifests differ. -/
theorem distinct_of_check (h : m.check = .ok ()) : m.Distinct := by
  obtain ⟨-, structs, enums, errors, events, hstructs, henums, herrors, hevents⟩ := check_eq_ok h
  have hstruct := nodup_of_foldlM hstructs nodup_nil (·.name) checkStruct_takes
  have henum := nodup_of_foldlM henums hstruct.1 (·.name) checkEnum_takes
  have herror := nodup_of_foldlM herrors henum.1 (·.name) checkError_takes
  have hevent := nodup_of_foldlM hevents herror.1 (·.name) checkEvent_takes
  have hnames : (events.map (·.1)).Perm (m.structs.map (·.name) ++ m.enums.map (·.name) ++
      m.errors.map (·.name) ++ m.events.map (·.name)) :=
    hevent.2.trans ((herror.2.trans ((henum.2.trans
      (hstruct.2.append_right _)).append_right _)).append_right _)
  simpa [Distinct, decls, Function.comp_def] using hnames.nodup_iff.1 hevent.1

theorem lookup_eq_some_iff {xs : List (String × β)} (h : (xs.map (·.1)).Nodup)
    {b : β} : xs.lookup name = some b ↔ (name, b) ∈ xs := by
  induction xs with
  | nil => simp
  | cons x xs ih =>
    obtain ⟨hx, hxs⟩ := nodup_cons.1 h
    obtain ⟨key, c⟩ := x
    rw [lookup_cons, mem_cons, ← ih hxs]
    by_cases hkey : name = key
    · subst hkey
      have hnone : (name, b) ∉ xs := fun hmem => hx (mem_map.2 ⟨_, hmem, rfl⟩)
      rw [← ih hxs] at hnone
      simp [hnone, eq_comm]
    · simp [beq_false_of_ne hkey, hkey]

theorem mem_locals :
    (name, l) ∈ m.locals first ↔ ∃ i, m.decls[i]? = some (name, l.isEnum, l.arity) ∧
      l.index = first + UInt16.ofNat i := by
  have hlocals : m.locals first = m.decls.zipIdx.map fun x =>
      (x.1.1, { index := first + UInt16.ofNat x.2, isEnum := x.1.2.1, arity := x.1.2.2 }) := rfl
  rw [hlocals, mem_map]
  constructor
  · rintro ⟨⟨⟨name', isEnum, arity⟩, i⟩, hmem, heq⟩
    cases heq
    exact ⟨i, mem_zipIdx_iff_getElem?.1 hmem, rfl⟩
  · rintro ⟨i, hi, hindex⟩
    refine ⟨((name, l.isEnum, l.arity), i), mem_zipIdx_iff_getElem?.2 hi, ?_⟩
    rw [← hindex]

theorem map_fst_locals (first : UInt16) : (m.locals first).map (·.1) = m.decls.map (·.1) := by
  have hlocals : m.locals first = m.decls.zipIdx.map fun x =>
      (x.1.1, { index := first + UInt16.ofNat x.2, isEnum := x.1.2.1, arity := x.1.2.2 }) := rfl
  rw [hlocals, map_map]
  conv_rhs => rw [← zipIdx_map_fst 0 m.decls, map_map]
  rfl

theorem lookup_locals (h : m.Distinct) :
    (m.locals first).lookup name = some l ↔ ∃ i, m.decls[i]? = some (name, l.isEnum, l.arity) ∧
      l.index = first + UInt16.ofNat i :=
  (lookup_eq_some_iff (by rwa [map_fst_locals])).trans mem_locals

theorem lookup_locals_eq_none :
    (m.locals first).lookup name = none ↔ name ∉ m.decls.map (·.1) := by
  rw [← m.map_fst_locals first, lookup_eq_none_iff, mem_map]
  constructor
  · rintro h ⟨x, hx, rfl⟩
    simpa using h x hx
  · intro h x hx
    simpa using fun heq => h ⟨x, hx, heq.symm⟩

/-- The number of a declared name. -/
def idOf (m : Manifest) (home : ModuleId) (name : String) : DefId :=
  (m.scope home Framework.base).idOf name

theorem idOf_of_lookup (h : (m.locals (Framework.base.freeIndex home)).lookup name = some l) :
    m.idOf home name = ⟨home, l.index⟩ := by
  simp only [idOf, Scope.idOf, scope, h, Option.map_some, Option.getD_some]

/-- The numbers of the declarations follow each other from the first that is free. -/
theorem map_idOf (h : m.Distinct) (home : ModuleId) :
    m.decls.map (fun d => m.idOf home d.1) = (List.range m.decls.length).map fun i =>
      ⟨home, Framework.base.freeIndex home + UInt16.ofNat i⟩ := by
  refine ext_getElem (by simp) fun i hi hi' => ?_
  rw [length_map] at hi
  rw [getElem_map, getElem_map, getElem_range]
  have hlookup : (m.locals (Framework.base.freeIndex home)).lookup m.decls[i].1 =
      some ⟨Framework.base.freeIndex home + UInt16.ofNat i, m.decls[i].2.1, m.decls[i].2.2⟩ :=
    (lookup_locals h).2 ⟨i, getElem?_eq_getElem hi, rfl⟩
  rw [idOf_of_lookup hlookup]

/-- The names of structs, errors and events, which are numbered as structs. -/
def recordNames (m : Manifest) : List String :=
  m.structs.map (·.name) ++ m.errors.map (·.name) ++ m.events.map (·.name)

/-- Another order of the declarations inside each section. -/
structure Reordered (m m' : Manifest) : Prop where
  package : m'.package = m.package
  build : m'.build = m.build
  structs : m.structs.Perm m'.structs
  enums : m.enums.Perm m'.enums
  errors : m.errors.Perm m'.errors
  events : m.events.Perm m'.events
  functions : m'.functions = m.functions

namespace Reordered

variable (h : m.Reordered m')

include h

theorem symm : m'.Reordered m :=
  ⟨h.package.symm, h.build.symm, h.structs.symm, h.enums.symm, h.errors.symm, h.events.symm,
    h.functions.symm⟩

theorem decls_perm : m.decls.Perm m'.decls :=
  (((h.structs.map _).append (h.enums.map _)).append (h.errors.map _)).append (h.events.map _)

theorem distinct (hm : m.Distinct) : m'.Distinct := (h.decls_perm.map _).nodup_iff.1 hm

theorem recordNames_perm : m.recordNames.Perm m'.recordNames :=
  ((h.structs.map _).append (h.errors.map _)).append (h.events.map _)

/-- The same numbers are given out in both orders, section by section. -/
theorem ids_eq (hm : m.Distinct) (home : ModuleId) :
    m'.recordNames.map (m'.idOf home) = m.recordNames.map (m.idOf home) ∧
      (m'.enums.map (·.name)).map (m'.idOf home) = (m.enums.map (·.name)).map (m.idOf home) := by
  have hall : m'.decls.map (fun d => m'.idOf home d.1) =
      m.decls.map (fun d => m.idOf home d.1) := by
    rw [map_idOf hm, map_idOf (h.distinct hm), h.decls_perm.length_eq]
  simp only [decls, map_append, map_map, Function.comp_def] at hall
  obtain ⟨hall, hevents⟩ := append_inj' hall (by simp [h.events.length_eq])
  obtain ⟨hall, herrors⟩ := append_inj' hall (by simp [h.errors.length_eq])
  obtain ⟨hstructs, henums⟩ := append_inj' hall (by simp [h.enums.length_eq])
  simp only [recordNames, map_append, map_map, Function.comp_def]
  exact ⟨by rw [hstructs, herrors, hevents], henums⟩

end Reordered

/-- A renaming takes the number of every declaration to its number in another order, and leaves the
framework as it is. -/
structure Renumbers (f : Renaming) (home : ModuleId) (m m' : Manifest) : Prop where
  records : ∀ name ∈ m.recordNames, f.structs (m.idOf home name) = m'.idOf home name
  enums : ∀ name ∈ m.enums.map (·.name), f.enums (m.idOf home name) = m'.idOf home name
  framework : ∀ d ∈ Framework.base.structs, f.structs d.id = d.id
  home : ∀ id, (f.structs id).home = id.home
  enumHome : ∀ id, (f.enums id).home = id.home

theorem Reordered.exists_renumbers (h : m.Reordered m') (hm : m.Distinct)
    (hrecords : (Framework.base.structs.map (·.id) ++ m.recordNames.map (m.idOf home)).Nodup)
    (henums : ((m.enums.map (·.name)).map (m.idOf home)).Nodup) :
    ∃ f : Renaming, Renumbers f home m m' := by
  obtain ⟨hrec, hen⟩ := h.ids_eq hm home
  have hperm : (m.recordNames.map (m.idOf home)).Perm (m.recordNames.map (m'.idOf home)) :=
    hrec ▸ (h.recordNames_perm.map (m'.idOf home)).symm
  have hperm' : ((m.enums.map (·.name)).map (m.idOf home)).Perm
      ((m.enums.map (·.name)).map (m'.idOf home)) :=
    hen ▸ ((h.enums.map (·.name)).map (m'.idOf home)).symm
  obtain ⟨π, hπ, hfix⟩ := exists_perm_map hperm (List.Nodup.of_append_right hrecords)
  obtain ⟨ρ, hρ, hfix'⟩ := exists_perm_map hperm' henums
  rw [map_map, map_inj_left] at hπ hρ
  -- A number is that of a declaration, which has another number of the package, or it stays.
  have hhome {σ : Equiv.Perm DefId} {names : List String}
      (hnew : ∀ name ∈ names, (σ ∘ m.idOf home) name = m'.idOf home name)
      (hold : ∀ id ∉ names.map (m.idOf home), σ id = id) (id : DefId) : (σ id).home = id.home := by
    by_cases hid : id ∈ names.map (m.idOf home)
    · obtain ⟨name, hname, rfl⟩ := mem_map.1 hid
      exact (congrArg DefId.home (hnew name hname)).trans rfl
    · exact congrArg DefId.home (hold id hid)
  refine ⟨⟨π, ρ⟩, hπ, hρ, fun d hd => hfix d.id fun hmem => ?_, hhome hπ hfix, hhome hρ hfix'⟩
  exact (disjoint_of_nodup_append hrecords) (mem_map_of_mem hd) hmem

/-! ## Matching scopes -/

/-- A registry has no definitions but the framework and declarations of a package. -/
structure Holds (home : ModuleId) (m : Manifest) (r : Registry) : Prop where
  structs : ∀ home' name, (home' = home → name ∉ m.decls.map (·.1)) →
    r.structNamed? home' name = Framework.base.structNamed? home' name
  enums : ∀ home' name, (home' = home → name ∉ m.decls.map (·.1)) → r.enumNamed? home' name = none

/-- A registry has the framework and all declarations of a package. -/
structure Covers (home : ModuleId) (m : Manifest) (r : Registry) : Prop where
  records : ∀ name ∈ m.recordNames, (r.findStruct? (m.idOf home name)).isSome = true
  enums : ∀ name ∈ m.enums.map (·.name), (r.findEnum? (m.idOf home name)).isSome = true
  framework : ∀ d ∈ Framework.base.structs, (r.findStruct? d.id).isSome = true

theorem mem_recordNames {arity : Int} (h : (name, false, arity) ∈ m.decls) :
    name ∈ m.recordNames := by
  simp only [decls, mem_append, mem_map] at h
  simp only [recordNames, mem_append, mem_map]
  grind

theorem mem_enumNames {arity : Int} (h : (name, true, arity) ∈ m.decls) :
    name ∈ m.enums.map (·.name) := by
  simp only [decls, mem_append, mem_map] at h
  simp only [mem_map]
  grind

theorem mem_decls_of_records (h : name ∈ m.recordNames) :
    name ∈ m.decls.map (·.1) := by
  simp only [recordNames, mem_append, mem_map] at h
  simp only [decls, map_append, map_map, mem_append, mem_map,
    Function.comp_apply]
  grind

theorem mem_decls_of_enums (h : name ∈ m.enums.map (·.name)) :
    name ∈ m.decls.map (·.1) := by
  simp only [decls, map_append, map_map, mem_append]
  exact .inl (.inl (.inr h))

theorem of_mem_ids {names : List String} (h : (id, name) ∈ names.map fun n => (m.idOf home n, n)) :
    id.home = home ∧ name ∈ names := by
  obtain ⟨n, hn, heq⟩ := mem_map.1 h
  cases heq
  exact ⟨rfl, hn⟩

theorem Renumbers.scope_matches (hf : Renumbers f home m m') (h : m.Reordered m')
    (hm : m.Distinct) {r s s' : Registry} (hr : Covers home m r) (hs : Holds home m s)
    (hs' : Holds home m' s') : (m.scope home s).Matches f r (m'.scope home s') := by
  have hnames (name : String) : name ∈ m'.decls.map (·.1) ↔ name ∈ m.decls.map (·.1) :=
    ((h.decls_perm.map _).mem_iff).symm
  refine ⟨rfl, fun name => ?_, fun home' name hother => ?_, fun home' name hother => ?_⟩
  · change Option.Rel _ ((m.locals _).lookup name) ((m'.locals _).lookup name)
    cases hl : (m.locals (Framework.base.freeIndex home)).lookup name with
    | none =>
      rw [lookup_locals_eq_none] at hl
      rw [lookup_locals_eq_none.2 fun hmem => hl ((hnames name).1 hmem)]
      exact .none
    | some l =>
      obtain ⟨i, hi, -⟩ := (lookup_locals hm).1 hl
      have hmem : (name, l.isEnum, l.arity) ∈ m.decls := mem_of_getElem? hi
      obtain ⟨j, hj⟩ := mem_iff_getElem?.1 (h.decls_perm.mem_iff.1 hmem)
      let l' : Local := ⟨Framework.base.freeIndex home + UInt16.ofNat j, l.isEnum, l.arity⟩
      have hl' : (m'.locals (Framework.base.freeIndex home)).lookup name = some l' :=
        (lookup_locals (h.distinct hm)).2 ⟨j, hj, rfl⟩
      have hid := idOf_of_lookup hl
      have hid' := idOf_of_lookup hl'
      rw [hl']
      refine .some ⟨rfl, rfl, fun henum => ?_, fun hstruct => ?_⟩
      · rw [henum] at hmem
        have hname := mem_enumNames hmem
        exact ⟨hid ▸ hr.enums name hname, hid ▸ hid' ▸ hf.enums name hname⟩
      · rw [hstruct] at hmem
        have hname := mem_recordNames hmem
        exact ⟨hid ▸ hr.records name hname, hid ▸ hid' ▸ hf.records name hname⟩
  · have hnot (heq : home' = home) : name ∉ m.decls.map (·.1) :=
      lookup_locals_eq_none.1 (hother heq)
    have hbase := hs.structs home' name hnot
    have hbase' := hs'.structs home' name fun heq hmem => hnot heq ((hnames name).1 hmem)
    refine ⟨hbase'.trans hbase.symm, fun d hd => ?_⟩
    have hmem : d ∈ Framework.base.structs := mem_of_find?_eq_some (hbase.symm.trans hd)
    exact ⟨hr.framework d hmem, hf.framework d hmem⟩
  · have hnot (heq : home' = home) : name ∉ m.decls.map (·.1) :=
      lookup_locals_eq_none.1 (hother heq)
    exact ⟨hs.enums home' name hnot,
      hs'.enums home' name fun heq hmem => hnot heq ((hnames name).1 hmem)⟩

/-! ## Definitions in another order -/

theorem Definitions.structs_registry (ds : Definitions) :
    ds.registry.structs = Framework.base.structs ++ ds.records.map StructDef.entered := rfl

theorem Definitions.enums_registry (ds : Definitions) : ds.registry.enums = ds.enums := by
  rw [registry, Registry.extendEnums, Registry.extend, Framework.enums_base, nil_append]

theorem Definitions.map_id_structs (ds : Definitions) :
    ds.registry.structs.map (·.id) = Framework.base.ids ds.records := by
  simp [structs_registry, Registry.ids, StructDef.entered, Function.comp_def]

theorem Scope.id_of_structDef {s : Scope} {role : StructRole} {indexed : Int}
    {x : StructDef} (h : s.structDef d role indexed = .ok x) : x.id = s.idOf d.name := by
  obtain ⟨_, -, h⟩ := bind_eq_ok h
  obtain ⟨_, -, h⟩ := bind_eq_ok h
  cases h
  rfl

theorem Scope.id_of_enumDef {s : Scope} {d : EnumDecl} {x : EnumDef} (h : s.enumDef d = .ok x) :
    x.id = s.idOf d.name ∧ x.name = d.name := by
  obtain ⟨_, -, h⟩ := bind_eq_ok h
  obtain ⟨_, -, h⟩ := bind_eq_ok h
  cases h
  exact ⟨rfl, rfl⟩

namespace Reads

variable {home : ModuleId} {ds : Definitions}

section

variable (h : m.Reads (m.scope home Framework.base) ds)

include h

/-- Structs, errors and events have the numbers and names of their declarations. -/
theorem map_records :
    ds.records.map (fun x => (x.id, x.name)) = m.recordNames.map fun n => (m.idOf home n, n) := by
  have hread {d : StructDecl} {role : StructRole} {indexed : Int} {x : StructDef}
      (hx : (m.scope home Framework.base).structDef d role indexed = .ok x) :
      (x.id, x.name) = (m.idOf home d.name, d.name) :=
    Prod.ext (Scope.id_of_structDef hx) (Scope.name_of_structDef hx)
  simp only [Definitions.records, recordNames, map_append, map_map, Function.comp_def]
  rw [map_of_mapM_eq_ok h.structs fun d x hx => hread hx,
    map_of_mapM_eq_ok h.errors fun d x hx => hread hx,
    map_of_mapM_eq_ok h.events fun d x hx => hread hx]

theorem map_enums :
    ds.enums.map (fun x => (x.id, x.name)) =
      (m.enums.map (·.name)).map fun n => (m.idOf home n, n) := by
  rw [map_map]
  exact map_of_mapM_eq_ok h.enums fun d x hx =>
    Prod.ext (Scope.id_of_enumDef hx).1 (Scope.id_of_enumDef hx).2

theorem map_id_records :
    ds.records.map (·.id) = m.recordNames.map (m.idOf home) := by
  simpa [map_map, Function.comp_def] using congrArg (List.map Prod.fst) h.map_records

theorem map_id_enums :
    ds.enums.map (·.id) = (m.enums.map (·.name)).map (m.idOf home) := by
  simpa [map_map, Function.comp_def] using congrArg (List.map Prod.fst) h.map_enums

theorem covers : Covers home m ds.registry := by
  refine ⟨fun name hname => ?_, fun name hname => ?_, fun d hd => ?_⟩
  · rw [Registry.isSome_findStruct?, ds.map_id_structs, Registry.ids, h.map_id_records]
    exact mem_append_right _ (mem_map_of_mem hname)
  · rw [Registry.isSome_findEnum?, ds.enums_registry, h.map_id_enums]
    exact mem_map_of_mem hname
  · rw [Registry.isSome_findStruct?, ds.map_id_structs]
    exact mem_append_left _ (mem_map_of_mem hd)

theorem holds : Holds home m ds.registry := by
  refine ⟨fun home' name hother => ?_, fun home' name hother => ?_⟩
  · rw [Registry.structNamed?, Registry.structNamed?, ds.structs_registry, find?_append]
    suffices hnone : (ds.records.map StructDef.entered).find?
        (fun d => d.id.home == home' && d.name == name) = none by
      rw [hnone, Option.or_none]
    simp only [find?_eq_none, forall_mem_map]
    intro x hx
    obtain ⟨hhome, hname⟩ := of_mem_ids (h.map_records ▸ mem_map.2 ⟨x, hx, rfl⟩)
    have hdecl := mem_decls_of_records hname
    simp only [StructDef.entered, Bool.and_eq_true, beq_iff_eq, not_and]
    exact fun heq heq' => hother (heq ▸ hhome) (heq' ▸ hdecl)
  · rw [Registry.enumNamed?, ds.enums_registry, find?_eq_none]
    intro x hx
    obtain ⟨hhome, hname⟩ := of_mem_ids (h.map_enums ▸ mem_map.2 ⟨x, hx, rfl⟩)
    have hdecl := mem_decls_of_enums hname
    simp only [Bool.and_eq_true, beq_iff_eq, not_and]
    exact fun heq heq' => hother (heq ▸ hhome) (heq' ▸ hdecl)

end

end Reads

theorem holds_base (home : ModuleId) : Holds home m Framework.base :=
  ⟨fun _ _ _ => rfl, fun _ _ _ => rfl⟩

def Definitions.rename (f : Renaming) (ds : Definitions) : Definitions where
  structs := ds.structs.map (·.rename f)
  enums := ds.enums.map (·.rename f)
  errors := ds.errors.map (·.rename f)
  events := ds.events.map (·.rename f)

/-- Definitions in another order inside each section. -/
structure Definitions.Perm (ds ds' : Definitions) : Prop where
  structs : ds.structs.Perm ds'.structs
  enums : ds.enums.Perm ds'.enums
  errors : ds.errors.Perm ds'.errors
  events : ds.events.Perm ds'.events

theorem Definitions.Perm.records {ds ds' : Definitions} (h : ds.Perm ds') :
    ds.records.Perm ds'.records :=
  (h.structs.append h.errors).append h.events

theorem Definitions.records_rename (f : Renaming) (ds : Definitions) :
    (ds.rename f).records = ds.records.map (·.rename f) := by
  simp only [records, rename, map_append]

namespace Reads

variable {f : Renaming} {home : ModuleId} {ds : Definitions} {r s s' : Registry}

/-- The declarations of a manifest are read in both scopes, under the numbers of each. -/
theorem rename (hf : Renumbers f home m m')
    (hmatches : (m.scope home s).Matches f r (m'.scope home s'))
    (h : m.Reads (m.scope home s) ds) :
    m.Reads (m'.scope home s') (ds.rename f) ∧
      ∀ d ∈ ds.records, ∀ q ∈ d.fields, r.Knows q.type := by
  have hid {name : String} (hname : name ∈ m.recordNames) :
      (m'.scope home s').idOf name = f.structs ((m.scope home s).idOf name) :=
    (hf.records name hname).symm
  simp only [recordNames, mem_append] at hid
  obtain ⟨_, hstructs, hknown, rfl⟩ := (InStep.mapM_self fun d hd =>
    hmatches.structDef d .plain 0 (hid (.inl (.inl (mem_map_of_mem hd))))).exists_ok h.structs
  obtain ⟨_, henums, -, rfl⟩ := (InStep.mapM_self fun d hd =>
    hmatches.enumDef d (hf.enums _ (mem_map_of_mem hd)).symm).exists_ok h.enums
  obtain ⟨_, herrors, hknown', rfl⟩ := (InStep.mapM_self fun d hd =>
    hmatches.structDef { d with arity := 0 } .error 0
      (hid (.inl (.inr (mem_map.2 ⟨d, hd, rfl⟩))))).exists_ok h.errors
  obtain ⟨_, hevents, hknown'', rfl⟩ := (InStep.mapM_self fun d hd =>
    hmatches.structDef { name := d.name, fields := d.fields } .event d.indexed
      (hid (.inr (mem_map_of_mem hd)))).exists_ok h.events
  refine ⟨⟨hstructs, henums, herrors, hevents⟩, fun d hd => ?_⟩
  rw [Definitions.records, mem_append, mem_append] at hd
  rcases hd with (hd | hd) | hd
  · exact hknown d hd
  · exact hknown' d hd
  · exact hknown'' d hd

/-- In one scope, declarations in another order give the definitions in that order. -/
theorem reorder {s : Scope} (horder : m.Reordered m') (h : m.Reads s ds) :
    ∃ ds', m'.Reads s ds' ∧ ds.Perm ds' := by
  obtain ⟨structs, hstructs, -, hs⟩ := (InStep.mapM_perm horder.structs).exists_ok h.structs
  obtain ⟨enums, henums, -, he⟩ := (InStep.mapM_perm horder.enums).exists_ok h.enums
  obtain ⟨errors, herrors, -, hr⟩ := (InStep.mapM_perm horder.errors).exists_ok h.errors
  obtain ⟨events, hevents, -, hv⟩ := (InStep.mapM_perm horder.events).exists_ok h.events
  exact ⟨⟨structs, enums, errors, events⟩, ⟨hstructs, henums, herrors, hevents⟩, hs, he, hr, hv⟩

end Reads

theorem Definitions.Consistent.reorder {ds ds' : Definitions} (hds : ds.Consistent)
    (h : m.Reordered m') (hm : m.Distinct) (hreads : m.Reads (m.scope home Framework.base) ds)
    (hreads' : m'.Reads (m'.scope home Framework.base) ds') (hperm : (ds.rename f).Perm ds') :
    ds'.Consistent := by
  obtain ⟨hrecords, henums⟩ := h.ids_eq hm home
  refine ⟨fun d hd => ?_, fun d hd => ?_, ?_, ?_⟩
  · rw [← hperm.records.mem_iff, records_rename] at hd
    obtain ⟨x, hx, rfl⟩ := mem_map.1 hd
    exact (hds.records x hx).rename
  · rw [← hperm.enums.mem_iff] at hd
    obtain ⟨x, hx, rfl⟩ := mem_map.1 hd
    exact (hds.enums x hx).rename
  · have hnodup := hds.nodup_records
    rwa [Registry.ids, hreads.map_id_records, ← hrecords, ← hreads'.map_id_records] at hnodup
  · have hnodup := hds.nodup_enums
    rwa [hreads.map_id_enums, ← henums, ← hreads'.map_id_enums] at hnodup

section Registry

variable {f : Renaming} {home : ModuleId} {ds ds' : Definitions}

section

variable (hf : Renumbers f home m m')

include hf

theorem Renumbers.rename_base {d : StructDef}
    (hd : d ∈ Framework.base.structs) : d.rename f = d := by
  have hidentifier : f.structs Framework.identifier = Framework.identifier := by
    obtain ⟨x, hx, hid⟩ := mem_map.1 Framework.identifier_mem_base
    rw [← hid, hf.framework x hx]
  have hfields : d.fields.map (·.rename f) = d.fields := by
    refine (map_congr_left fun q hq => ?_).trans d.fields.map_id
    have htype : q.type.rename f = q.type := by
      rcases Framework.field_types_base d hd q hq with h | h | h <;> rw [h]
      · rfl
      · rw [MoveType.rename_struct, hidentifier]
        rfl
      · rfl
    rw [Field.rename, htype]
    rfl
  rw [StructDef.rename, hf.framework d hd, hfields]

theorem Renumbers.rename_entered (d : StructDef) :
    d.entered.rename f = (d.rename f).entered := by
  simp only [StructDef.entered, StructDef.rename, hf.home]

theorem Renumbers.map_entered (xs : List StructDef) :
    (xs.map StructDef.entered).map (·.rename f) = (xs.map (·.rename f)).map StructDef.entered := by
  rw [map_map, map_map]
  exact map_congr_left fun d _ => hf.rename_entered d

theorem Renumbers.structs_perm (hperm : (ds.rename f).Perm ds') :
    (ds.registry.structs.map (·.rename f)).Perm ds'.registry.structs := by
  have hbase : Framework.base.structs.map (·.rename f) = Framework.base.structs :=
    (map_congr_left fun d hd => hf.rename_base hd).trans (map_id _)
  rw [ds.structs_registry, ds'.structs_registry, map_append, hbase, hf.map_entered,
    ← Definitions.records_rename]
  exact (hperm.records.map _).append_left _

theorem Renumbers.objects_perm (hperm : (ds.rename f).Perm ds') :
    (((ds.structs.map StructDef.entered).filter (·.isObject)).map (·.rename f)).Perm
      ((ds'.structs.map StructDef.entered).filter (·.isObject)) := by
  have hfilter (xs : List StructDef) : (xs.filter (·.isObject)).map (·.rename f) =
      (xs.map (·.rename f)).filter (·.isObject) := by
    rw [filter_map]
    rfl
  rw [hfilter, hf.map_entered]
  exact (hperm.structs.map _).filter _

/-- The registries of both orders hold the same definitions under their numbers. -/
theorem Renumbers.renamed (hds' : ds'.Consistent)
    (hperm : (ds.rename f).Perm ds') : ds.registry.Renamed f ds'.registry := by
  have hstructs := hf.structs_perm hperm
  refine ⟨fun id => ?_, fun id => ?_, ?_⟩
  · have hnodup : (ds'.registry.structs.map (·.id)).Nodup :=
      ds'.map_id_structs ▸ hds'.nodup_records
    exact find?_rename hstructs hnodup (fun _ => rfl) id
  · rw [Registry.findEnum?, Registry.findEnum?, ds.enums_registry, ds'.enums_registry]
    exact find?_rename hperm.enums hds'.nodup_enums (fun _ => rfl) id
  · rw [← hstructs.length_eq, length_map]

end

/-- Fields of the package and of the framework refer to definitions of the registry. -/
theorem Reads.closed (hreads : m.Reads (m.scope home Framework.base) ds)
    (hknown : ∀ d ∈ ds.records, ∀ q ∈ d.fields, ds.registry.Knows q.type) :
    ds.registry.Closed := by
  intro d hd q hq
  rw [ds.structs_registry, mem_append] at hd
  rcases hd with hd | hd
  · obtain ⟨x, hx, hid⟩ := mem_map.1 Framework.identifier_mem_base
    have hidentifier := hid ▸ hreads.covers.framework x hx
    have hplain {t : MoveType} (ht : t = .address ∨ t = .u8) : ds.registry.Knows t := by
      intro q hq
      rcases ht with rfl | rfl <;> cases mem_singleton.1 hq <;> trivial
    rcases Framework.field_types_base d hd q hq with h | h | h <;> rw [h]
    · exact hplain (.inl rfl)
    · exact Registry.knows_struct.2 ⟨hidentifier, forall_mem_nil _⟩
    · exact Registry.knows_vector.2 (hplain (.inr rfl))
  · obtain ⟨x, hx, rfl⟩ := mem_map.1 hd
    exact hknown x hx q hq

/-! ## Packages -/

open Interface (Entry)

def SameEntries {δ : Type} (decls decls' : List δ) (es es' : List Entry) : Prop :=
  (decls.zip es).Perm (decls'.zip es') ∧ es.Perm es'

theorem Renumbers.entries_inStep (hf : Renumbers f home m m') {decls decls' : List δ}
    (hperm : decls.Perm decls') {read : δ → Except Error StructDef} {xs ys : List StructDef}
    (hxs : decls.mapM read = .ok (xs.map (·.rename f))) (hys : decls'.mapM read = .ok ys)
    {entry entry' : StructDef → Except Error Entry}
    (hentry : ∀ d, InStep Eq (entry d) (entry' (d.rename f))) :
    InStep (SameEntries decls decls')
      ((xs.map StructDef.entered).mapM entry) ((ys.map StructDef.entered).mapM entry') := by
  rw [List.mapM_map, List.mapM_map]
  have hsame : InStep Eq (xs.mapM fun x => entry x.entered)
      ((xs.map (·.rename f)).mapM fun x => entry' x.entered) :=
    InStep.mapM_same fun x _ => hf.rename_entered x ▸ hentry x.entered
  rw [← mapM_bind hxs] at hsame
  have horder := InStep.mapM_perm (g := fun d => read d >>= fun x => entry' x.entered) hperm
  rw [mapM_bind hys] at horder
  exact hsame.trans horder fun _ _ _ heq h => heq ▸ h

end Registry

end Manifest

open Interface (Entry ofKind)

theorem Package.interface_inStep {p p' : Package} {R S : List Entry → List Entry → Prop}
    (hfunctions : InStep Eq (p.functions.mapM p.functionEntry) (p'.functions.mapM p'.functionEntry))
    (herrors : InStep R (p.errors.mapM p.errorEntry) (p'.errors.mapM p'.errorEntry))
    (hevents : InStep S (p.events.mapM p.eventEntry) (p'.events.mapM p'.eventEntry)) :
    InStep (fun es es' => ofKind es .function = ofKind es' .function ∧
      R (ofKind es .error) (ofKind es' .error) ∧ S (ofKind es .event) (ofKind es' .event))
      p.interface p'.interface := by
  have hboth : InStep (fun _ _ => True) p.interface p'.interface :=
    .bind hfunctions fun _ _ _ => .bind herrors fun _ _ _ => .bind hevents fun _ _ _ => .ok trivial
  generalize hx : p.interface = x at hboth ⊢
  generalize hy : p'.interface = y at hboth ⊢
  cases hboth with
  | error e e' => exact .error e e'
  | ok _ =>
    obtain ⟨hf, hr, hv⟩ := ofKind_interface hx
    obtain ⟨hf', hr', hv'⟩ := ofKind_interface hy
    exact .ok ⟨hfunctions.results hf hf', herrors.results hr hr', hevents.results hv hv'⟩

namespace Manifest

variable {m m' : Manifest}

/-- Two packages hold the same definitions under other numbers, as the declarations of two manifests
stand in different orders. -/
structure Agree (m m' : Manifest) (f : Renaming) (p p' : Package) : Prop where
  home : p'.home = p.home
  modules : ∀ id, (f.structs id).home = id.home ∧ (f.enums id).home = id.home
  registry : p.registry.Renamed f p'.registry
  objects : (p.objects.map (·.rename f)).Perm p'.objects
  /-- Type expressions stand for the same definitions. -/
  expressions : ∀ source, InStep (p.registry.Tracks f)
    (Expression.parse source (some (m.scope p.home p.registry).resolve))
    (Expression.parse source (some (m'.scope p'.home p'.registry).resolve))
  /-- Functions have the same entries in the same order, errors and events in that of their
  declarations. -/
  interface : InStep (fun es es' => ofKind es .function = ofKind es' .function ∧
      SameEntries m.errors m'.errors (ofKind es .error) (ofKind es' .error) ∧
      SameEntries m.events m'.events (ofKind es .event) (ofKind es' .event))
    p.interface p'.interface
  /-- The cells of a struct keep their paths and places, in the same order. -/
  layouts : ∀ id args, (∀ a ∈ args, p.registry.Knows a) →
    InStep (fun cells cells' => cells' = cells.map (Storage.Cell.rename f))
      (p.registry.storageLayout id args)
      (p'.registry.storageLayout (f.structs id) (args.map (·.rename f)))

theorem Reordered.exists_agree (h : m.Reordered m') (hm : m.Distinct) {p : Package}
    (hp : m.resolve = .ok p) : ∃ p', m'.resolve = .ok p' ∧ ∃ f, Agree m m' f p p' := by
  obtain ⟨address, ds, functions, haddress, hreads, hds, hfunctions, rfl⟩ := resolve_eq_ok.1 hp
  generalize hhome : (⟨address, m.package.module⟩ : ModuleId) = home at hreads hfunctions
  have hrecords := hds.nodup_records
  have henums := hds.nodup_enums
  rw [Registry.ids, hreads.map_id_records] at hrecords
  rw [hreads.map_id_enums] at henums
  obtain ⟨f, hf⟩ := h.exists_renumbers hm hrecords henums
  obtain ⟨hread, hknown⟩ := hreads.rename hf
    (hf.scope_matches h hm hreads.covers (holds_base home) (holds_base home))
  obtain ⟨ds', hreads', hperm⟩ := hread.reorder h
  have hds' := hds.reorder h hm hreads hreads' hperm
  have hmatches := hf.scope_matches h hm hreads.covers hreads.holds hreads'.holds
  obtain ⟨_, hfunctions', hused, rfl⟩ :=
    (InStep.mapM_self fun d _ => hmatches.function d).exists_ok hfunctions
  have hrenamed := hf.renamed hds' hperm
  have hclosed := hreads.closed hknown
  subst hhome
  refine ⟨ds'.package ⟨address, m.package.module⟩ (functions.map (·.rename f)), ?_, f, ?_⟩
  · rw [resolve_eq_ok, h.package, h.functions]
    exact ⟨address, ds', _, haddress, hreads', hds', hfunctions', rfl⟩
  let p := ds.package ⟨address, m.package.module⟩ functions
  let p' := ds'.package ⟨address, m.package.module⟩ (functions.map (·.rename f))
  have hr : p.registry.Renamed f p'.registry :=
    ⟨hrenamed.structs, hrenamed.enums, hrenamed.length_eq⟩
  have hc : p.registry.Closed := hclosed
  have hentries : InStep Eq (p.functions.mapM p.functionEntry)
      (p'.functions.mapM p'.functionEntry) :=
    InStep.mapM_same fun g hg =>
      Package.functionEntry_rename hr hc (hused g hg).1 (hused g hg).2
  refine ⟨rfl, fun id => ⟨hf.home id, hf.enumHome id⟩, hr, hf.objects_perm hperm, ?_, ?_, ?_⟩
  · exact fun source => hmatches.parse source
  · exact Package.interface_inStep hentries
      (hf.entries_inStep h.errors hread.errors hreads'.errors (Package.errorEntry_rename hr hc))
      (hf.entries_inStep h.events hread.events hreads'.events (Package.eventEntry_rename hr hc))
  · exact fun id args hargs => Registry.storageLayout_rename hr hc id hargs

/-- The order of the declarations inside the sections of an accepted manifest does not matter: it is
resolved in all orders or in none, and the packages agree. -/
theorem resolve_reordered {source : String} (hm : parse source = .ok m) (h : m.Reordered m') :
    InStep (fun p p' => ∃ f, Agree m m' f p p') m.resolve m'.resolve := by
  have hdistinct := distinct_of_check (check_of_parse hm)
  cases hp : m.resolve with
  | ok p =>
    obtain ⟨p', hp', hagree⟩ := h.exists_agree hdistinct hp
    exact hp' ▸ .ok hagree
  | error e =>
    cases hp' : m'.resolve with
    | error e' => exact .error e e'
    | ok p' =>
      obtain ⟨p, hok, -⟩ := h.symm.exists_agree (h.distinct hdistinct) hp'
      rw [hp] at hok
      cases hok

/-- A package with two structs. -/
def depot : String :=
  "[package]\nname = \"depot\"\n" ++
  "[[struct]]\nname = \"Crate\"\nfields = [\x7bname = \"weight\", type = \"u64\"\x7d]\n" ++
  "[[struct]]\nname = \"Shelf\"\nfields = [\x7bname = \"free\", type = \"bool\"\x7d]\n"

theorem resolve_reordered_depot :
    ∃ m p p', parse depot = .ok m ∧ m.structs.map (·.name) = ["Crate", "Shelf"] ∧
      m.resolve = .ok p ∧ resolve { m with structs := m.structs.reverse } = .ok p' ∧
      ∃ f, Agree m { m with structs := m.structs.reverse } f p p' := by
  have hread : ((parse depot).toOption.bind fun m =>
      m.resolve.toOption.map fun _ => m.structs.map (·.name)) = some ["Crate", "Shelf"] := by
    decide +kernel
  cases hm : parse depot with
  | error e =>
    rw [hm] at hread
    cases hread
  | ok m =>
    cases hp : m.resolve with
    | error e => simp [hm, hp, Except.toOption] at hread
    | ok p =>
      have hnames : m.structs.map (·.name) = ["Crate", "Shelf"] := by
        simpa [hm, hp, Except.toOption] using hread
      have horder : m.Reordered { m with structs := m.structs.reverse } :=
        ⟨rfl, rfl, (reverse_perm _).symm, .refl _, .refl _, .refl _, rfl⟩
      obtain ⟨p', hp', hagree⟩ := (resolve_reordered hm horder).exists_ok hp
      exact ⟨m, p, p', rfl, hnames, hp, hp', hagree⟩

end Manifest

end MoveCodec
