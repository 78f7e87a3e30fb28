import MoveCodec.Proofs.Manifest.Resolution
import MoveCodec.Proofs.Package.Description
import MoveCodec.Proofs.Wire.Readable

/-!
# Telling calls apart

A call, an error or a log is told by the signature of its entry: an external name with canonical
parameters. Two entries have one signature only if they have one external name and the same
canonical parameters, so declarations whose external names differ are told apart. The names that a
manifest declares differ; but external names leave out separators and raise letters, and two names
that differ in nothing else become one.
-/
namespace MoveCodec

open Interface List
open Assembly (bind_eq_ok mapM_eq_ok exists_of_mapM_eq_ok)

variable {d : StructDef} {e : Entry} {entries : List Entry} {f : PublicFunction} {s : Scope}

/-! ## Signatures -/

/-- No name of this kind holds the parenthesis that parameters begin with. -/
theorem Text.paren_notMem_camel (next : LetterCase) (cs : List Char) :
    '(' ∉ (String.ofList (camelFrom next cs)).toList := by
  rw [String.toList_ofList]
  exact fun h => ne_of_mem_camelFrom h rfl

/-- A signature is read in one way as a name and parameters. -/
theorem Wire.signature_inj {a b : String} {xs ys : List String} (ha : '(' ∉ a.toList)
    (hb : '(' ∉ b.toList) (h : a ++ tuple xs = b ++ tuple ys) : a = b ∧ tuple xs = tuple ys := by
  have htuple (zs : List String) :
      (tuple zs).toList = '(' :: (",".intercalate zs ++ ")").toList := by
    rw [tuple, String.append_assoc, String.toList_append]
    rfl
  have hname {c : String} (hc : '(' ∉ c.toList) (zs : List String) :
      (c ++ tuple zs).toList.takeWhile (· ≠ '(') = c.toList := by
    have hall : ∀ d ∈ c.toList, decide (d ≠ '(') = true := by
      intro d hd
      exact decide_eq_true fun heq => hc (heq ▸ hd)
    rw [String.toList_append, htuple, takeWhile_append_of_pos hall]
    simp
  have hab : a.toList = b.toList := by rw [← hname ha xs, h, hname hb ys]
  have heq : a = b := String.toList_inj.1 hab
  subst heq
  rw [← String.toList_inj, String.toList_append, String.toList_append] at h
  exact ⟨rfl, String.toList_inj.1 (append_cancel_left h)⟩

/-! ## Names of declarations -/

def Manifest.externalNames (m : Manifest) : EntryKind → List String
  | .function => m.functions.map fun d => Text.lowerCamel d.name
  | .error => m.errors.map fun d => Text.upperCamel d.name
  | .event => m.events.map fun d => Text.upperCamel d.name

namespace Manifest

theorem Scope.name_of_structDef {d : StructDecl} {role : StructRole} {indexed : Int}
    {x : StructDef} (h : s.structDef d role indexed = .ok x) : x.name = d.name := by
  obtain ⟨_, -, h⟩ := bind_eq_ok h
  obtain ⟨_, -, h⟩ := bind_eq_ok h
  cases h
  rfl

theorem Scope.name_of_function {d : FunctionDecl}
    (h : s.function d = .ok f) : f.name = d.name := by
  obtain ⟨_, -, h⟩ := bind_eq_ok h
  obtain ⟨_, -, h⟩ := bind_eq_ok h
  cases h
  rfl

end Manifest

theorem map_of_mapM_eq_ok {α β γ : Type} {f : α → Except Error β} {xs : List α} {ys : List β}
    {g : α → γ} {g' : β → γ} (h : xs.mapM f = .ok ys)
    (hg : ∀ x y, f x = .ok y → g' y = g x) : ys.map g' = xs.map g := by
  have hall : List.Forall₂ (fun x y => g' y = g x) xs ys := (mapM_eq_ok.1 h).imp hg
  clear h
  induction hall with
  | nil => rfl
  | cons hx _ ih => rw [map_cons, map_cons, hx, ih]

def Interface.ofKind (entries : List Entry) (kind : EntryKind) : List Entry :=
  entries.filter (·.kind = kind)

namespace Package

variable {p : Package}

theorem functionEntry_name (h : p.functionEntry f = .ok e) :
    e.kind = .function ∧ e.name = Text.lowerCamel f.name := by
  obtain ⟨_, -, h⟩ := bind_eq_ok h
  obtain ⟨_, -, h⟩ := bind_eq_ok h
  cases h
  exact ⟨rfl, rfl⟩

theorem errorEntry_name (h : p.errorEntry d = .ok e) :
    e.kind = .error ∧ e.name = Text.upperCamel d.name := by
  obtain ⟨_, -, h⟩ := bind_eq_ok h
  obtain ⟨_, -, h⟩ := bind_eq_ok h
  cases h
  exact ⟨rfl, rfl⟩

theorem eventEntry_name (h : p.eventEntry d = .ok e) :
    e.kind = .event ∧ e.name = Text.upperCamel d.name := by
  obtain ⟨_, -, h⟩ := bind_eq_ok h
  obtain ⟨_, -, h⟩ := bind_eq_ok h
  cases h
  exact ⟨rfl, rfl⟩

theorem ofKind_interface (h : p.interface = .ok entries) :
    p.functions.mapM p.functionEntry = .ok (ofKind entries .function) ∧
      p.errors.mapM p.errorEntry = .ok (ofKind entries .error) ∧
      p.events.mapM p.eventEntry = .ok (ofKind entries .event) := by
  obtain ⟨functions, hfunctions, h⟩ := bind_eq_ok h
  obtain ⟨errors, herrors, h⟩ := bind_eq_ok h
  obtain ⟨events, hevents, h⟩ := bind_eq_ok h
  cases h
  have hf : ∀ e ∈ functions, e.kind = .function := by
    intro e he
    obtain ⟨f, -, hf⟩ := exists_of_mapM_eq_ok hfunctions he
    exact (functionEntry_name hf).1
  have hr : ∀ e ∈ errors, e.kind = .error := by
    intro e he
    obtain ⟨d, -, hd⟩ := exists_of_mapM_eq_ok herrors he
    exact (errorEntry_name hd).1
  have hv : ∀ e ∈ events, e.kind = .event := by
    intro e he
    obtain ⟨d, -, hd⟩ := exists_of_mapM_eq_ok hevents he
    exact (eventEntry_name hd).1
  have hkeep {es : List Entry} {k : EntryKind} (hes : ∀ e ∈ es, e.kind = k) : ofKind es k = es :=
    filter_eq_self.2 fun e he => decide_eq_true (hes e he)
  have hdrop {es : List Entry} {k k' : EntryKind} (hes : ∀ e ∈ es, e.kind = k) (hk : k ≠ k') :
      ofKind es k' = [] :=
    filter_eq_nil_iff.2 fun e he => by simpa [hes e he] using hk
  have hsplit (k : EntryKind) : ofKind (functions ++ errors ++ events) k =
      ofKind functions k ++ ofKind errors k ++ ofKind events k := by
    rw [ofKind, filter_append, filter_append]
    rfl
  refine ⟨?_, ?_, ?_⟩
  · rw [hsplit, hkeep hf, hdrop hr (by decide), hdrop hv (by decide), hfunctions]
    simp
  · rw [hsplit, hkeep hr, hdrop hf (by decide), hdrop hv (by decide), herrors]
    simp
  · rw [hsplit, hkeep hv, hdrop hf (by decide), hdrop hr (by decide), hevents]
    simp

theorem map_name_ofKind {m : Manifest} (hp : m.resolve = .ok p)
    (h : p.interface = .ok entries) (kind : EntryKind) :
    (ofKind entries kind).map (·.name) = m.externalNames kind := by
  obtain ⟨hfunctions, herrors, hevents⟩ := ofKind_interface h
  obtain ⟨address, ds, functions, -, hreads, -, hread, rfl⟩ := Manifest.resolve_eq_ok.1 hp
  cases kind with
  | function =>
    rw [map_of_mapM_eq_ok hfunctions fun f e he => (functionEntry_name he).2]
    exact map_of_mapM_eq_ok hread fun d f hf => by rw [Manifest.Scope.name_of_function hf]
  | error =>
    rw [map_of_mapM_eq_ok herrors fun d e he => (errorEntry_name he).2]
    change (ds.errors.map StructDef.entered).map (fun d => Text.upperCamel d.name) = _
    rw [map_map]
    refine map_of_mapM_eq_ok hreads.errors fun d x hx => ?_
    have hname := Manifest.Scope.name_of_structDef hx
    exact congrArg Text.upperCamel hname
  | event =>
    rw [map_of_mapM_eq_ok hevents fun d e he => (eventEntry_name he).2]
    change (ds.events.map StructDef.entered).map (fun d => Text.upperCamel d.name) = _
    rw [map_map]
    refine map_of_mapM_eq_ok hreads.events fun d x hx => ?_
    have hname := Manifest.Scope.name_of_structDef hx
    exact congrArg Text.upperCamel hname

theorem signature_of_mem (h : p.interface = .ok entries)
    (he : e ∈ entries) :
    e.signature = e.name ++ Wire.tuple (e.inputs.map Param.expand) ∧ '(' ∉ e.name.toList := by
  obtain ⟨functions, hfunctions, h⟩ := bind_eq_ok h
  obtain ⟨errors, herrors, h⟩ := bind_eq_ok h
  obtain ⟨events, hevents, h⟩ := bind_eq_ok h
  cases h
  rw [mem_append, mem_append] at he
  rcases he with (he | he) | he
  · obtain ⟨f, -, hf⟩ := exists_of_mapM_eq_ok hfunctions he
    exact ⟨(functionEntry_eq_ok hf).2.1, (functionEntry_name hf).2 ▸ Text.paren_notMem_camel _ _⟩
  · obtain ⟨d, -, hd⟩ := exists_of_mapM_eq_ok herrors he
    exact ⟨(errorEntry_eq_ok hd).2.1, (errorEntry_name hd).2 ▸ Text.paren_notMem_camel _ _⟩
  · obtain ⟨d, -, hd⟩ := exists_of_mapM_eq_ok hevents he
    exact ⟨(eventEntry_eq_ok hd).2.1, (eventEntry_name hd).2 ▸ Text.paren_notMem_camel _ _⟩

/-- Two entries of a compiled package have one signature if and only if they have one external name
and the same canonical parameters. Entries of a kind have the external names of their declarations,
in order; if these differ, so do the signatures. -/
theorem signatures_told_apart {m : Manifest} {config : CompileOptions} {a : Artifact}
    (hp : m.resolve = .ok p) (ha : p.compile config = .ok a) :
    (∀ e ∈ a.entries, ∀ e' ∈ a.entries, e.signature = e'.signature ↔ e.name = e'.name ∧
      Wire.tuple (e.inputs.map Param.expand) = Wire.tuple (e'.inputs.map Param.expand)) ∧
    ∀ kind, (ofKind a.entries kind).map (·.name) = m.externalNames kind ∧
      ((m.externalNames kind).Nodup → ((ofKind a.entries kind).map (·.signature)).Nodup) := by
  obtain ⟨-, -, -, -, hentries⟩ := compile_eq_ok ha
  have hiff : ∀ e ∈ a.entries, ∀ e' ∈ a.entries, e.signature = e'.signature ↔ e.name = e'.name ∧
      Wire.tuple (e.inputs.map Param.expand) = Wire.tuple (e'.inputs.map Param.expand) := by
    intro e he e' he'
    obtain ⟨hs, hn⟩ := signature_of_mem hentries he
    obtain ⟨hs', hn'⟩ := signature_of_mem hentries he'
    rw [hs, hs']
    exact ⟨Wire.signature_inj hn hn', fun ⟨hname, hparams⟩ => by rw [hname, hparams]⟩
  refine ⟨hiff, fun kind => ⟨map_name_ofKind hp hentries kind, fun hnodup => ?_⟩⟩
  rw [← map_name_ofKind hp hentries kind, List.Nodup, pairwise_map] at hnodup
  rw [List.Nodup, pairwise_map]
  refine hnodup.imp_of_mem fun he he' hne hsame => hne ?_
  exact ((hiff _ (mem_of_mem_filter he) _ (mem_of_mem_filter he')).1 hsame).1

def build? (source : String) (config : CompileOptions) : Option (Manifest × Package × Artifact) :=
  match Manifest.parse source with
  | .error _ => none
  | .ok m =>
    match m.resolve with
    | .error _ => none
    | .ok p =>
      match p.compile config with
      | .error _ => none
      | .ok a => some (m, p, a)

theorem build?_eq_some {source : String} {config : CompileOptions} {m : Manifest} {p : Package}
    {a : Artifact} (h : build? source config = some (m, p, a)) :
    Manifest.parse source = .ok m ∧ m.resolve = .ok p ∧ p.compile config = .ok a := by
  unfold build? at h
  split at h
  · cases h
  · rename_i hparse
    split at h
    · cases h
    · rename_i hresolve
      split at h
      · cases h
      · rename_i hcompile
        cases h
        exact ⟨hparse, hresolve, hcompile⟩

/-- A package with a function and two errors. -/
def shop : String :=
  "[package]\nname = \"shop\"\n[[function]]\nname = \"get_value\"\n" ++
  "[[error]]\nname = \"Empty\"\n[[error]]\nname = \"Closed\"\n"

theorem signatures_told_apart_shop :
    ∃ m p a, Manifest.parse shop = .ok m ∧ m.resolve = .ok p ∧ p.compile {} = .ok a ∧
      (ofKind a.entries .error).map (·.name) = ["Empty", "Closed"] ∧
      ((ofKind a.entries .error).map (·.signature)).Nodup := by
  have hbuild : ((build? shop {}).map fun x => x.1.externalNames .error) =
      some ["Empty", "Closed"] := by
    decide +kernel
  obtain ⟨⟨m, p, a⟩, hsome, hnames⟩ := Option.map_eq_some_iff.1 hbuild
  obtain ⟨hm, hp, ha⟩ := build?_eq_some hsome
  obtain ⟨hname, hnodup⟩ := (signatures_told_apart hp ha).2 .error
  rw [hnames] at hname hnodup
  exact ⟨m, p, a, hm, hp, ha, hname, hnodup (by decide)⟩

/-- A package with two functions whose names differ in a separator. -/
def homonyms : String :=
  "[package]\nname = \"shop\"\n[[function]]\nname = \"get_value\"\n" ++
  "[[function]]\nname = \"getValue\"\n"

/-- Different declarations can have one signature. -/
theorem not_nodup_signatures_homonyms :
    ∃ m p a, Manifest.parse homonyms = .ok m ∧ m.resolve = .ok p ∧ p.compile {} = .ok a ∧
      (m.functions.map (·.name)).Nodup ∧
      ¬ ((ofKind a.entries .function).map (·.signature)).Nodup := by
  have hbuild : ((build? homonyms {}).map fun x =>
      (x.1.functions.map (·.name), (ofKind x.2.2.entries .function).map (·.signature))) =
        some (["get_value", "getValue"], ["getValue()", "getValue()"]) := by
    decide +kernel
  obtain ⟨⟨m, p, a⟩, hsome, hresult⟩ := Option.map_eq_some_iff.1 hbuild
  obtain ⟨hnames, hsignatures⟩ := Prod.mk.inj hresult
  obtain ⟨hm, hp, ha⟩ := build?_eq_some hsome
  refine ⟨m, p, a, hm, hp, ha, ?_, ?_⟩
  · rw [hnames]
    decide
  · rw [hsignatures]
    decide

end Package

end MoveCodec
