import MoveCodec.Proofs.Package.Renaming

/-!
# Names in two scopes

Two scopes match if every name stands for the same definition in both, up to the number of that
definition. In matching scopes the same expressions can be read, and what they stand for differs by
the renumbering alone.
-/
namespace MoveCodec

/-! ## Type expressions -/

def Registry.Tracks (r : Registry) (f : Renaming) (t t' : MoveType) : Prop :=
  r.Knows t ∧ t' = t.rename f

namespace Registry.Tracks

variable {r : Registry} {f : Renaming} {t t' : MoveType}

theorem vector (h : r.Tracks f t t') : r.Tracks f (.vector t) (.vector t') :=
  ⟨knows_vector.2 h.1, by rw [MoveType.rename, h.2]⟩

theorem ref (h : r.Tracks f t t') (m : Bool) : r.Tracks f (.ref m t) (.ref m t') :=
  ⟨knows_ref.2 h.1, by rw [MoveType.rename, h.2]⟩

theorem forall₂_iff {ts ts' : List MoveType} :
    List.Forall₂ (r.Tracks f) ts ts' ↔ (∀ t ∈ ts, r.Knows t) ∧ ts' = ts.map (·.rename f) :=
  Assembly.forall₂_and_eq

theorem param (i : UInt16) : r.Tracks f (.param i) (.param i) :=
  ⟨fun q hq => by cases List.mem_singleton.1 hq; trivial, rfl⟩

theorem keyword {name : String} (h : Expression.keyword? name = some t) : r.Tracks f t t := by
  unfold Expression.keyword? at h
  split at h
  all_goals
    cases h
  all_goals
    refine ⟨fun q hq => ?_, rfl⟩
    cases List.mem_singleton.1 hq
    trivial

end Registry.Tracks

namespace Expression

variable {r : Registry} {f : Renaming} {resolve resolve' : Resolver}

def meaning (source : String) (resolve : Resolver) (name : String) (args : List MoveType)
    (rest : List Char) : Except Error (MoveType × List Char) :=
  if name = "vector" then
    match args with
    | [e] => return (.vector e, rest)
    | _ => refuse source ("vector takes one type argument, got " ++ toString args.length)
  else do return (← resolve name args, rest)

theorem meaning_inStep (source : String)
    (h : ∀ name args args', List.Forall₂ (r.Tracks f) args args' →
      InStep (r.Tracks f) (resolve name args) (resolve' name args')) (name : String)
    {args args' : List MoveType} {rest rest' : List Char}
    (hargs : List.Forall₂ (r.Tracks f) args args') (hrest : rest' = rest) :
    InStep (fun x x' => r.Tracks f x.1 x'.1 ∧ x'.2 = x.2)
      (meaning source resolve name args rest) (meaning source resolve' name args' rest') := by
  subst hrest
  unfold meaning
  split
  · cases hargs with
    | nil => exact .error _ _
    | cons he hes =>
      cases hes with
      | nil => exact .ok ⟨he.vector, rfl⟩
      | cons => exact .error _ _
  · exact .bind (h name args args' hargs) fun t t' ht => .ok ⟨ht, rfl⟩

theorem read_inStep (source : String)
    (h : ∀ name args args', List.Forall₂ (r.Tracks f) args args' →
      InStep (r.Tracks f) (resolve name args) (resolve' name args')) (fuel : Nat) :
    (∀ cs, InStep (fun x x' => r.Tracks f x.1 x'.1 ∧ x'.2 = x.2)
      (readType source (some resolve) fuel cs) (readType source (some resolve') fuel cs)) ∧
    ∀ cs, InStep (fun x x' => List.Forall₂ (r.Tracks f) x.1 x'.1 ∧ x'.2 = x.2)
      (readArguments source (some resolve) fuel cs)
      (readArguments source (some resolve') fuel cs) := by
  induction fuel with
  | zero => exact ⟨fun cs => .error _ _, fun cs => .error _ _⟩
  | succ fuel ih =>
    obtain ⟨iht, iha⟩ := ih
    refine ⟨fun cs => ?_, fun cs => ?_⟩
    · rw [readType, readType]
      split
      · split
        · exact .bind (iht _) fun x x' ⟨ht, hrest⟩ => .ok ⟨ht.ref true, hrest⟩
        · exact .bind (iht _) fun x x' ⟨ht, hrest⟩ => .ok ⟨ht.ref false, hrest⟩
      · dsimp only
        generalize List.takeWhile isNameChar (skipBlanks cs) = name
        generalize List.dropWhile isNameChar (skipBlanks cs) = rest
        split
        · exact .error _ _
        · split
          · rename_i hkeyword
            exact .ok ⟨.keyword hkeyword, rfl⟩
          · exact .ok ⟨.param _, rfl⟩
          · split
            · refine .bind (iha _) fun ⟨args, rest⟩ ⟨args', rest'⟩ ⟨hargs, hrest⟩ => ?_
              exact meaning_inStep source h _ hargs hrest
            · exact meaning_inStep source h _ .nil rfl
    · rw [readArguments, readArguments]
      refine .bind (iht cs) fun x x' ⟨ht, hrest⟩ => ?_
      obtain ⟨t, rest⟩ := x
      obtain ⟨t', rest'⟩ := x'
      dsimp only at ht hrest ⊢
      subst hrest
      split
      · exact .ok ⟨.cons ht .nil, rfl⟩
      · exact .bind (iha _) fun y y' ⟨hts, hlast⟩ => .ok ⟨.cons ht hts, hlast⟩
      · exact .error _ _

theorem parse_inStep (source : String)
    (h : ∀ name args args', List.Forall₂ (r.Tracks f) args args' →
      InStep (r.Tracks f) (resolve name args) (resolve' name args')) :
    InStep (r.Tracks f) (parse source (some resolve)) (parse source (some resolve')) := by
  refine .bind ((read_inStep source h _).1 _) fun x x' ⟨ht, hrest⟩ => ?_
  obtain ⟨t, rest⟩ := x
  obtain ⟨t', rest'⟩ := x'
  dsimp only at ht hrest ⊢
  subst hrest
  split
  · exact .ok ht
  · exact .error _ _

end Expression

/-! ## Scopes -/

namespace Manifest

/-- What a name stands for under other numbers. -/
structure Local.Matches (f : Renaming) (r : Registry) (home : ModuleId) (l l' : Local) : Prop where
  isEnum : l'.isEnum = l.isEnum
  arity : l'.arity = l.arity
  enum : l.isEnum = true → (r.findEnum? ⟨home, l.index⟩).isSome = true ∧
    f.enums ⟨home, l.index⟩ = ⟨home, l'.index⟩
  struct : l.isEnum = false → (r.findStruct? ⟨home, l.index⟩).isSome = true ∧
    f.structs ⟨home, l.index⟩ = ⟨home, l'.index⟩

/-- Names of the package stand for the same definitions in both scopes, and names of other modules
for definitions that keep their numbers. -/
structure Scope.Matches (f : Renaming) (r : Registry) (s s' : Scope) : Prop where
  home : s'.home = s.home
  locals : ∀ name, Option.Rel (Local.Matches f r s.home) (s.locals.lookup name)
    (s'.locals.lookup name)
  structNamed : ∀ home name, (home = s.home → s.locals.lookup name = none) →
    s'.registry.structNamed? home name = s.registry.structNamed? home name ∧
      ∀ d, s.registry.structNamed? home name = some d →
        (r.findStruct? d.id).isSome = true ∧ f.structs d.id = d.id
  enumNamed : ∀ home name, (home = s.home → s.locals.lookup name = none) →
    s.registry.enumNamed? home name = none ∧ s'.registry.enumNamed? home name = none

namespace Scope.Matches

variable {f : Renaming} {r : Registry} {s s' : Scope}

theorem checkArity (name : String) (arity : Int) {args args' : List MoveType}
    (h : List.Forall₂ (r.Tracks f) args args') :
    Scope.checkArity name arity args' = Scope.checkArity name arity args := by
  rw [Scope.checkArity, Scope.checkArity, h.length_eq]

section

variable (h : s.Matches f r s')

include h

theorem ofPackage (name : String) {args args' : List MoveType}
    (hargs : List.Forall₂ (r.Tracks f) args args') :
    InStep (r.Tracks f) (s.ofPackage name args) (s'.ofPackage name args') := by
  obtain ⟨hknows, rfl⟩ := Registry.Tracks.forall₂_iff.1 hargs
  unfold Scope.ofPackage
  have hlocals := h.locals name
  generalize s.locals.lookup name = l at hlocals ⊢
  generalize s'.locals.lookup name = l' at hlocals ⊢
  cases hlocals with
  | none => exact .error _ _
  | some hl =>
    rename_i l l'
    dsimp only
    rw [hl.arity, checkArity name l.arity hargs, h.home]
    refine .bind (.refl _) fun _ _ _ => .ok ?_
    rw [hl.isEnum]
    split
    · rename_i henum
      obtain ⟨hid, hnew⟩ := hl.enum henum
      exact ⟨Registry.knows_enum.2 ⟨hid, hknows⟩, by rw [MoveType.rename_enum, hnew]⟩
    · rename_i hstruct
      obtain ⟨hid, hnew⟩ := hl.struct (by simpa using hstruct)
      exact ⟨Registry.knows_struct.2 ⟨hid, hknows⟩, by rw [MoveType.rename_struct, hnew]⟩

theorem ofModule {home : ModuleId} {name : String}
    (hother : home = s.home → s.locals.lookup name = none) {args args' : List MoveType}
    (hargs : List.Forall₂ (r.Tracks f) args args') :
    InStep (r.Tracks f) (s.ofModule home name args) (s'.ofModule home name args') := by
  obtain ⟨hknows, rfl⟩ := Registry.Tracks.forall₂_iff.1 hargs
  obtain ⟨hsame, hkeeps⟩ := h.structNamed home name hother
  obtain ⟨hnone, hnone'⟩ := h.enumNamed home name hother
  unfold Scope.ofModule
  rw [hsame, hnone, hnone']
  cases hd : s.registry.structNamed? home name with
  | none => exact .error _ _
  | some d =>
    obtain ⟨hid, hnew⟩ := hkeeps d hd
    dsimp only
    rw [checkArity name d.arity hargs]
    refine .bind (.refl _) fun _ _ _ => .ok ⟨Registry.knows_struct.2 ⟨hid, hknows⟩, ?_⟩
    rw [StructDef.type, StructDef.type, MoveType.rename_struct, hnew]

/-- Names are resolved in step. -/
theorem resolve (name : String) (args args' : List MoveType)
    (hargs : List.Forall₂ (r.Tracks f) args args') :
    InStep (r.Tracks f) (s.resolve name args) (s'.resolve name args') := by
  unfold Scope.resolve
  split
  · refine .bind (.refl _) fun a _ ha => ?_
    subst ha
    dsimp only
    rw [h.home]
    split
    · exact h.ofPackage _ hargs
    · rename_i hne
      exact h.ofModule (fun heq => absurd heq hne) hargs
  · have hsome : (s'.locals.lookup name).isSome = (s.locals.lookup name).isSome := by
      have hlocals := h.locals name
      generalize s.locals.lookup name = l at hlocals ⊢
      generalize s'.locals.lookup name = l' at hlocals ⊢
      cases hlocals <;> rfl
    rw [hsome]
    split
    · exact h.ofPackage name hargs
    · rename_i hnone
      have hother (home : ModuleId) : home = s.home → s.locals.lookup name = none :=
        fun _ => Option.not_isSome_iff_eq_none.1 hnone
      split
      · exact h.ofModule (hother _) hargs
      · split
        · exact h.ofModule (hother _) hargs
        · exact .error _ _

theorem parse (source : String) :
    InStep (r.Tracks f) (Expression.parse source (some s.resolve))
      (Expression.parse source (some s'.resolve)) :=
  Expression.parse_inStep source h.resolve

theorem fields (owner : String) (decls : List FieldDecl) :
    InStep (fun qs qs' => (∀ q ∈ qs, r.Knows q.type) ∧ qs' = qs.map (·.rename f))
      (s.fields owner decls) (s'.fields owner decls) := by
  refine InStep.mapM_self fun d _ => ?_
  exact .bind ((h.parse d.type).within _ _) fun t t' ht => .ok ⟨ht.1, by rw [ht.2, Field.rename]⟩

theorem structDef (d : StructDecl) (role : StructRole) (indexed : Int)
    (hid : s'.idOf d.name = f.structs (s.idOf d.name)) :
    InStep (fun x x' => (∀ q ∈ x.fields, r.Knows q.type) ∧ x' = x.rename f)
      (s.structDef d role indexed) (s'.structDef d role indexed) := by
  refine .bind (.refl _) fun a _ ha => .bind (h.fields d.name d.fields) fun qs qs' hqs => ?_
  subst ha
  exact .ok ⟨hqs.1, by rw [hid, hqs.2, StructDef.rename]⟩

theorem enumDef (d : EnumDecl)
    (hid : s'.idOf d.name = f.enums (s.idOf d.name)) :
    InStep (fun x x' => True ∧ x' = x.rename f) (s.enumDef d) (s'.enumDef d) := by
  have hplain : (d.plain.map fun name => ({ name } : Variant)) =
      (d.plain.map fun name => ({ name } : Variant)).map (·.rename f) := by
    rw [List.map_map]
    rfl
  refine .bind (.refl _) fun a _ ha => .bind
    (InStep.mapM_self (P := fun _ => True) (k := Variant.rename f) fun v _ => ?_)
    fun vs vs' hvs => .ok ⟨trivial, ?_⟩
  · refine .bind (h.fields _ v.fields) fun qs qs' hqs => .ok ⟨trivial, ?_⟩
    rw [hqs.2, Variant.rename]
  · subst ha
    rw [EnumDef.rename, List.map_append, ← hplain, hvs.2, hid]

theorem concrete (function : String) (exprs : List String) :
    InStep (fun ts ts' => (∀ t ∈ ts, r.Knows t) ∧ ts' = ts.map (·.rename f))
      (s.concrete function exprs) (s'.concrete function exprs) := by
  refine InStep.mapM_self fun source _ => .bind ((h.parse source).within _ _) fun t t' ht => ?_
  obtain ⟨hknows, rfl⟩ := ht
  rw [MoveType.isConcrete_rename]
  split
  · exact .ok ⟨hknows, rfl⟩
  · exact .error _ _

theorem function (d : FunctionDecl) :
    InStep (fun g g' => ((∀ t ∈ g.params, r.Knows t) ∧ ∀ t ∈ g.results, r.Knows t) ∧
      g' = g.rename f) (s.function d) (s'.function d) := by
  refine .bind (h.concrete d.name d.params) fun ps ps' hps => ?_
  refine .bind (h.concrete d.name d.results) fun rs rs' hrs => ?_
  exact .ok ⟨⟨hps.1, hrs.1⟩, by rw [hps.2, hrs.2, PublicFunction.rename]⟩

end

end Scope.Matches

end Manifest

end MoveCodec
