import MoveCodec.Proofs.Assembly.Generation
import MoveCodec.Proofs.Reasons

/-!
# Which generators succeed

`Decides S P V g Q` says that `g`, run where `P` holds, succeeds if `V` does and fails otherwise. It
leaves `Q` behind when it succeeds; when it fails, it says what is wrong with the request and leaves
`P` as it was. Requests can also fail because of what was requested before: two may have the same
symbol, or the numbers for functions run out. This is not held against `V`; `Setting.Distinct` says
that it does not happen.
-/
namespace MoveCodec.Assembly

open Wasm Machine List

variable {y : Request} {e : Cached} {locals : List ValType} {d : Draft} {f : FuncId} {code : Code}

/-! ## Requests -/

structure Request where
  kind : String
  args : List MoveType
  deriving DecidableEq

namespace Request

def key (x : Request) : Bytes := requestKey x.kind x.args

/-- The name of the function that answers the request. -/
def symbol (x : Request) : String := Assembly.symbol x.kind x.args

theorem eq_of_key_eq {x : Request} (h : x.key = y.key) : x = y := by
  obtain ⟨hkind, hargs⟩ := requestKey_inj h
  cases x
  cases y
  simp_all

end Request

/-! ## Labels -/

/-- What a function is known by. -/
inductive Label where
  | imported (home name : String)
  | defined (name : String)
  deriving DecidableEq

def Entry.label : Entry → Label
  | .imported home name _ => .imported home name
  | .defined name .. => .defined name

@[simp] theorem Entry.label_complete (locals : List ValType) (code : Code) (e : Entry) :
    (e.complete locals code).label = e.label := by
  cases e <;> rfl

/-- The function is an import or has its whole body. -/
def Entry.IsCoded (e : Entry) : Prop :=
  e.isImport = true ∨ ∃ name t locals code, e = .coded name t locals code

theorem Entry.isCoded_complete (locals : List ValType) (code : Code) (e : Entry) :
    (e.complete locals code).IsCoded := by
  cases e with
  | imported => exact .inl rfl
  | defined name t => exact .inr ⟨name, t, locals, code, rfl⟩

/-- Parameters and locals of the function can be numbered. -/
def Entry.Small : Entry → Prop
  | .imported .. => True
  | .defined _ t locals .. => t.params.length ≤ 8 ∧ locals.length + 8 < UInt32.size

theorem Entry.Small.complete {e : Entry} (h : e.Small)
    (hlocals : locals.length + 8 < UInt32.size) (code : Code) : (e.complete locals code).Small := by
  cases e with
  | imported => trivial
  | defined => exact ⟨h.1, hlocals⟩

namespace Draft

def labels (d : Draft) : List Label := d.funcs.map Entry.label

theorem length_labels (d : Draft) : d.labels.length = d.funcs.length := length_map _

@[simp] theorem labels_complete (d : Draft) (f : FuncId) (locals : List ValType) (code : Code) :
    (d.modify f (Entry.complete locals code)).labels = d.labels := by
  refine ext_getElem? fun i => ?_
  rw [labels, modify, labels, getElem?_map, getElem?_map, getElem?_modify]
  cases d.funcs[i]? with
  | none => rfl
  | some e =>
    simp only [Option.map_eq_map, Option.map_some]
    split <;> simp

/-- Completing a function changes only that function. -/
theorem mem_complete {e : Entry}
    (h : e ∈ (d.modify f (Entry.complete locals code)).funcs) :
    (∃ e', d.funcs[f.toNat]? = some e' ∧ e = e'.complete locals code) ∨
      ∃ i, i ≠ f.toNat ∧ d.funcs[i]? = some e := by
  obtain ⟨i, hi⟩ := mem_iff_getElem?.1 h
  rw [modify, getElem?_modify] at hi
  by_cases hif : f.toNat = i
  · subst hif
    obtain ⟨e', he', rfl⟩ := Option.map_eq_some_iff.1 hi
    exact .inl ⟨e', he', by rw [if_pos rfl]⟩
  · obtain ⟨e', he', rfl⟩ := Option.map_eq_some_iff.1 hi
    exact .inr ⟨i, Ne.symm hif, by rw [if_neg hif]; exact he'⟩

theorem isSome_definition? {name : String} :
    (d.definition? name).isSome = true ↔ .defined name ∈ d.labels := by
  rw [definition?, Option.isSome_map, findIdx?_isSome, any_eq_true, labels, mem_map]
  refine exists_congr fun e => and_congr_right fun _ => ?_
  cases e <;> simp [Entry.isImport, Entry.name, Entry.label]

theorem nameOf_eq {name : String}
    (h : d.labels[f.toNat]? = some (.defined name)) : d.nameOf f = name := by
  rw [labels, getElem?_map, Option.map_eq_some_iff] at h
  obtain ⟨e, he, hlabel⟩ := h
  rw [nameOf, he]
  cases e with
  | imported => cases hlabel
  | defined =>
    cases hlabel
    rfl

/-- Functions keep their labels, and exports stay as they are. -/
structure Lengthens (d d' : Draft) : Prop where
  labels_le : d.labels <+: d'.labels
  exports_eq : d'.exports = d.exports

theorem Lengthens.refl (d : Draft) : d.Lengthens d := ⟨prefix_refl _, rfl⟩

theorem Lengthens.trans {d' d'' : Draft} (h : d.Lengthens d') (h' : d'.Lengthens d'') :
    d.Lengthens d'' :=
  ⟨h.labels_le.trans h'.labels_le, h'.exports_eq.trans h.exports_eq⟩

end Draft

/-! ## Settings -/

/-- What a run of generators is judged by: the module of the host, the requests that can occur, what
is known of a request that was answered, and what is known of the sizes of what they are about. -/
structure Setting where
  home : String
  requests : Set Request
  answered : Request → Prop
  sized : Prop

variable {S : Setting} {O D : Set Request} {a b : Assembly} {x : Request}

/-- The names that requests lead to differ from each other and from the allocator's, and all
functions can be numbered: beside those of the requests there are the allocator and the imports.
Nothing is too large. -/
structure Setting.Distinct (S : Setting) : Prop where
  symbol_inj : Set.InjOn Request.symbol S.requests
  symbol_ne : ∀ x ∈ S.requests, x.symbol ≠ "allocate"
  room : S.requests.encard + (1 + HostFunc.all.length : Nat) ≤ UInt32.size
  sized : S.sized

/-- All functions of the assembly are the allocator, imports and functions of requests. The requests
of `O` are not answered yet; those of `D` among them have their function already. -/
structure Underway (S : Setting) (O D : Set Request) (a : Assembly) : Prop where
  opened_sub : O ⊆ S.requests
  claimed_sub : D ⊆ O
  cached : ∀ e ∈ a.cache.entries, ∃ x ∈ S.requests, e.key = x.key ∧ e.name = x.symbol ∧
    (e.func = none ↔ x ∈ O)
  opened : ∀ x ∈ O, ∃ e ∈ a.cache.entries, e.key = x.key
  answered : ∀ x, (a.cache.lookup? x.kind x.args).isSome = true → S.answered x
  defined : ∀ name, .defined name ∈ a.draft.labels → name = "allocate" ∨
    ∃ x ∈ S.requests, name = x.symbol ∧
      (x ∈ D ∨ x ∉ O ∧ ∃ e ∈ a.cache.entries, e.key = x.key)
  imported : ∀ home name, .imported home name ∈ a.draft.labels →
    home = S.home ∧ name ∈ HostFunc.all.map HostFunc.name
  nodup : a.draft.labels.Nodup
  small : S.Distinct → ∀ e ∈ a.draft.funcs, e.Small
  coded : S.Distinct → ∀ e ∈ a.draft.funcs, e.IsCoded ∨ ∃ x ∈ D, e.label = .defined x.symbol

namespace Underway

theorem exists_of_find? (h : Underway S O D a) (he : a.cache.find? x.key = some e) :
    x ∈ S.requests ∧ e.name = x.symbol ∧ (e.func = none ↔ x ∈ O) := by
  obtain ⟨y, hy, hkey, hname, hfunc⟩ := h.cached e (mem_of_find?_eq_some he)
  rw [Cache.key_of_find? he] at hkey
  cases Request.eq_of_key_eq hkey
  exact ⟨hy, hname, hfunc⟩

theorem exists_find? (he : e ∈ a.cache.entries) (hkey : e.key = x.key) :
    ∃ e', a.cache.find? x.key = some e' := by
  rw [← Option.isSome_iff_exists, Cache.find?, find?_isSome]
  exact ⟨e, he, by simp [hkey]⟩

theorem ne_of_find? (hfree : a.cache.find? x.key = none)
    (he : e ∈ a.cache.entries) (hkey : e.key = y.key) : y ≠ x := by
  rintro rfl
  obtain ⟨e', he'⟩ := exists_find? he hkey
  rw [hfree] at he'
  cases he'

theorem not_mem_of_find? (h : Underway S O D a) (hx : a.cache.find? x.key = none) : x ∉ O := by
  intro hO
  obtain ⟨e, he, hkey⟩ := h.opened x hO
  exact ne_of_find? hx he hkey rfl

/-- A name that no request of the cache has is free, unless it was claimed. -/
theorem not_mem_labels (h : Underway S O D a) (hS : S.Distinct) (hx : x ∈ S.requests) (hD : x ∉ D)
    (hfree : x ∈ O ∨ a.cache.find? x.key = none) : .defined x.symbol ∉ a.draft.labels := by
  intro hmem
  obtain hallocate | ⟨y, hy, hname, hclaimed⟩ := h.defined _ hmem
  · exact hS.symbol_ne x hx hallocate
  · cases hS.symbol_inj hx hy hname
    obtain hclaimed | ⟨hO, e, he, hkey⟩ := hclaimed
    · exact hD hclaimed
    · rcases hfree with hfree | hfree
      · exact hO hfree
      · exact ne_of_find? hfree he hkey rfl

theorem taken_eq_false (h : Underway S O D a) (hS : S.Distinct) (hx : x ∈ S.requests)
    (hfree : a.cache.find? x.key = none) : a.taken x.symbol = false := by
  rw [taken, Bool.or_eq_false_iff]
  constructor
  · rw [Bool.eq_false_iff, Cache.isTaken, ne_eq, any_eq_true]
    rintro ⟨e, he, hname⟩
    obtain ⟨y, hy, hkey, hsymbol, -⟩ := h.cached e he
    have hsame : x.symbol = y.symbol := by rw [← hsymbol, eq_comm]; simpa using hname
    cases hS.symbol_inj hx hy hsame
    exact ne_of_find? hfree he hkey rfl
  · rw [Bool.eq_false_iff, ne_eq, Draft.isSome_definition?]
    exact h.not_mem_labels hS hx (fun hD => h.not_mem_of_find? hfree (h.claimed_sub hD))
      (.inr hfree)

/-- Labels that differ are no more than there are names for them. -/
theorem length_le (h : Underway S O D a) (hS : S.Distinct) : a.draft.labels.length ≤ UInt32.size := by
  classical
  set names : Set Label := (fun x : Request => Label.defined x.symbol) '' S.requests
  set others : List Label :=
    .defined "allocate" :: HostFunc.all.map fun f => .imported S.home f.name
  have hsub : ((a.draft.labels.toFinset : Finset Label) : Set Label) ⊆
      names ∪ (others.toFinset : Set Label) := by
    rintro (⟨home, name⟩ | name) hl
    · obtain ⟨rfl, hname⟩ := h.imported home name (by simpa using hl)
      obtain ⟨f, hf, rfl⟩ := mem_map.1 hname
      exact .inr (by simpa [others] using ⟨f, hf, rfl⟩)
    · obtain rfl | ⟨x, hx, rfl, -⟩ := h.defined name (by simpa using hl)
      · exact .inr (by simp [others])
      · exact .inl ⟨x, hx, rfl⟩
  have hcount : (a.draft.labels.length : ℕ∞) ≤ UInt32.size :=
    calc (a.draft.labels.length : ℕ∞)
        = ((a.draft.labels.toFinset : Finset Label) : Set Label).encard := by
          rw [Set.encard_coe_eq_coe_finsetCard, toFinset_card_of_nodup h.nodup]
      _ ≤ names.encard + ((others.toFinset : Finset Label) : Set Label).encard :=
          (Set.encard_le_encard hsub).trans (Set.encard_union_le _ _)
      _ ≤ S.requests.encard + (1 + HostFunc.all.length : Nat) := by
          refine add_le_add (Set.encard_image_le _ _) ?_
          rw [Set.encard_coe_eq_coe_finsetCard]
          refine Nat.cast_le.2 ((toFinset_card_le others).trans ?_)
          simp [others, Nat.add_comm]
      _ ≤ UInt32.size := hS.room
  exact_mod_cast hcount

/-! ## Changes of the assembly -/

theorem opening (h : Underway S O D a) (hx : x ∈ S.requests) (hfree : a.cache.find? x.key = none) :
    Underway S (insert x O) D (a.opening x.kind x.args) where
  opened_sub := Set.insert_subset hx h.opened_sub
  claimed_sub := h.claimed_sub.trans (Set.subset_insert _ _)
  cached e he := by
    rcases mem_append.1 he with hold | hnew
    · obtain ⟨y, hy, hkey, hname, hfunc⟩ := h.cached e hold
      exact ⟨y, hy, hkey, hname, by simp [hfunc, ne_of_find? hfree hold hkey]⟩
    · cases mem_singleton.1 hnew
      exact ⟨x, hx, rfl, rfl, by simp⟩
  opened y hy := by
    rcases hy with rfl | hy
    · exact ⟨_, mem_append_right _ (mem_singleton_self _), rfl⟩
    · obtain ⟨e, he, hkey⟩ := h.opened y hy
      exact ⟨e, mem_append_left _ he, hkey⟩
  answered y hy := by
    obtain ⟨f, hf⟩ := Option.isSome_iff_exists.1 hy
    exact h.answered y (Option.isSome_iff_exists.2 ⟨f, lookup?_opening hfree hf⟩)
  defined name hname := by
    obtain hallocate | ⟨y, hy, rfl, hclaimed⟩ := h.defined name hname
    · exact .inl hallocate
    · refine .inr ⟨y, hy, rfl, hclaimed.imp_right ?_⟩
      rintro ⟨hO, e, he, hkey⟩
      exact ⟨by simp [hO, ne_of_find? hfree he hkey], e, mem_append_left _ he, hkey⟩
  imported := h.imported
  nodup := h.nodup
  small := h.small
  coded := h.coded

theorem mem_dropping (he : e ∈ a.cache.entries) (hkey : e.key = y.key)
    (hne : y ≠ x) : e ∈ (a.dropping x.kind x.args).cache.entries := by
  refine mem_filter.2 ⟨he, bne_iff_ne.2 fun hsame => hne ?_⟩
  exact Request.eq_of_key_eq (hkey.symm.trans hsame)

/-- The function of an open request is claimed. -/
theorem claim (h : Underway S O D a) (hx : x ∈ O) (type : FuncType) (htype : type.params.length ≤ 8)
    (hfree : .defined x.symbol ∉ a.draft.labels) :
    Underway S O (insert x D) { a with draft :=
      { a.draft with funcs := a.draft.funcs ++ [.claimed x.symbol type] } } where
  opened_sub := h.opened_sub
  claimed_sub := Set.insert_subset hx h.claimed_sub
  cached := h.cached
  opened := h.opened
  answered := h.answered
  defined name hname := by
    rw [Draft.labels, map_append, mem_append] at hname
    rcases hname with hname | hname
    · obtain hallocate | ⟨y, hy, rfl, hclaimed⟩ := h.defined name hname
      · exact .inl hallocate
      · exact .inr ⟨y, hy, rfl, hclaimed.imp_left .inr⟩
    · cases mem_singleton.1 hname
      exact .inr ⟨x, h.opened_sub hx, rfl, .inl (.inl rfl)⟩
  imported home name hname := by
    rw [Draft.labels, map_append, mem_append] at hname
    rcases hname with hname | hname
    · exact h.imported home name hname
    · cases mem_singleton.1 hname
  nodup := by
    rw [Draft.labels, map_append]
    exact h.nodup.append (nodup_singleton _) (disjoint_singleton.2 hfree)
  small hS e he := by
    rcases mem_append.1 he with he | he
    · exact h.small hS e he
    · cases mem_singleton.1 he
      exact ⟨htype, by decide⟩
  coded hS e he := by
    rcases mem_append.1 he with he | he
    · exact (h.coded hS e he).imp_right fun ⟨y, hy, hlabel⟩ => ⟨y, .inr hy, hlabel⟩
    · cases mem_singleton.1 he
      exact .inr ⟨x, .inl rfl, rfl⟩

/-- A request is answered with its function. -/
theorem answering (h : Underway S (insert x O) (insert x D) a) (hO : x ∉ O) (hD : x ∉ D)
    (hx : S.answered x) (hcoded : S.Distinct → ∀ e ∈ a.draft.funcs,
      e.label = .defined x.symbol → e.IsCoded) (f : FuncId) : Underway S O D (a.answering x.kind x.args f) where
  opened_sub := (Set.subset_insert _ _).trans h.opened_sub
  claimed_sub y hy := (h.claimed_sub (.inr hy)).resolve_left fun heq => hD (heq ▸ hy)
  cached e he := by
    obtain ⟨e', he', rfl⟩ := mem_map.1 he
    obtain ⟨y, hy, hkey, hname, hfunc⟩ := h.cached e' he'
    refine ⟨y, hy, ?_, ?_, ?_⟩
    · split <;> exact hkey
    · split <;> exact hname
    · split
      · rename_i hsame
        have hyx : y = x := Request.eq_of_key_eq (hkey.symm.trans (beq_iff_eq.1 hsame))
        subst hyx
        simp [hO]
      · rename_i hother
        have hne : y ≠ x := by
          rintro rfl
          exact hother (beq_iff_eq.2 hkey)
        rw [hfunc, Set.mem_insert_iff, or_iff_right hne]
  opened y hy := by
    obtain ⟨e, he, hkey⟩ := h.opened y (.inr hy)
    refine ⟨_, mem_map_of_mem he, ?_⟩
    split <;> exact hkey
  answered y hy := by
    obtain ⟨g, hg⟩ := Option.isSome_iff_exists.1 hy
    rcases lookup?_answering hg with hg | ⟨hkind, hargs, -⟩
    · exact h.answered y (Option.isSome_iff_exists.2 ⟨g, hg⟩)
    · cases x
      cases y
      cases hkind
      cases hargs
      exact hx
  defined name hname := by
    obtain hallocate | ⟨y, hy, rfl, hclaimed⟩ := h.defined name hname
    · exact .inl hallocate
    · refine .inr ⟨y, hy, rfl, ?_⟩
      have hentry : (∃ e ∈ a.cache.entries, e.key = y.key) →
          ∃ e ∈ (a.answering x.kind x.args f).cache.entries, e.key = y.key := by
        rintro ⟨e, he, hkey⟩
        refine ⟨_, mem_map_of_mem he, ?_⟩
        split <;> exact hkey
      obtain (rfl | hclaimed) | ⟨hopen, he⟩ := hclaimed
      · exact .inr ⟨hO, hentry (h.opened _ (.inl rfl))⟩
      · exact .inl hclaimed
      · exact .inr ⟨fun hy => hopen (.inr hy), hentry he⟩
  imported := h.imported
  nodup := h.nodup
  small := h.small
  coded hS e he := by
    obtain hdone | ⟨y, rfl | hy, hlabel⟩ := h.coded hS e he
    · exact .inl hdone
    · exact .inl (hcoded hS e he hlabel)
    · exact .inr ⟨y, hy, hlabel⟩

/-- A request is given up before its function is claimed. -/
theorem dropping (h : Underway S (insert x O) D a) (hO : x ∉ O) (hD : x ∉ D) :
    Underway S O D (a.dropping x.kind x.args) where
  opened_sub := (Set.subset_insert _ _).trans h.opened_sub
  claimed_sub y hy := (h.claimed_sub hy).resolve_left fun heq => hD (heq ▸ hy)
  cached e he := by
    obtain ⟨he, hother⟩ := mem_filter.1 he
    obtain ⟨y, hy, hkey, hname, hfunc⟩ := h.cached e he
    have hne : y ≠ x := by
      rintro rfl
      simp [hkey, Request.key] at hother
    exact ⟨y, hy, hkey, hname, by rw [hfunc, Set.mem_insert_iff, or_iff_right hne]⟩
  opened y hy := by
    obtain ⟨e, he, hkey⟩ := h.opened y (.inr hy)
    exact ⟨e, mem_dropping he hkey fun heq => hO (heq ▸ hy), hkey⟩
  answered y hy := by
    obtain ⟨f, hf⟩ := Option.isSome_iff_exists.1 hy
    exact h.answered y (Option.isSome_iff_exists.2 ⟨f, lookup?_dropping hf⟩)
  defined name hname := by
    obtain hallocate | ⟨y, hy, rfl, hclaimed⟩ := h.defined name hname
    · exact .inl hallocate
    · refine .inr ⟨y, hy, rfl, hclaimed.imp_right ?_⟩
      rintro ⟨hopen, e, he, hkey⟩
      exact ⟨fun hy => hopen (.inr hy), e, mem_dropping he hkey fun heq => hopen (.inl heq), hkey⟩
  imported := h.imported
  nodup := h.nodup
  small := h.small
  coded := h.coded

theorem declareImport (h : Underway S O D a) (f : HostFunc) (type : FuncType) :
    Underway S O D { a with draft := (a.draft.declareImport S.home f.name type).2 } ∧
      a.draft.Lengthens (a.draft.declareImport S.home f.name type).2 := by
  dsimp only [Draft.declareImport]
  split
  · exact ⟨h, .refl _⟩
  · rename_i hnone
    have hfree : .imported S.home f.name ∉ a.draft.labels := by
      intro hmem
      obtain ⟨e, he, hlabel⟩ := mem_map.1 hmem
      have := findIdx?_eq_none_iff.1 hnone e he
      cases e with
      | defined => cases hlabel
      | imported home name t =>
        cases hlabel
        simp at this
    refine ⟨⟨h.opened_sub, h.claimed_sub, h.cached, h.opened, h.answered, fun name hname => ?_,
      fun home name hname => ?_, ?_, fun hS e he => ?_, fun hS e he => ?_⟩, ?_, rfl⟩
    · rw [Draft.labels, map_append, mem_append] at hname
      rcases hname with hname | hname
      · exact h.defined name hname
      · cases mem_singleton.1 hname
    · rw [Draft.labels, map_append, mem_append] at hname
      rcases hname with hname | hname
      · exact h.imported home name hname
      · cases mem_singleton.1 hname
        exact ⟨rfl, mem_map_of_mem (by cases f <;> decide)⟩
    · rw [Draft.labels, map_append]
      exact h.nodup.append (nodup_singleton _) (disjoint_singleton.2 hfree)
    · rcases mem_append.1 he with he | he
      · exact h.small hS e he
      · cases mem_singleton.1 he
        trivial
    · rcases mem_append.1 he with he | he
      · exact h.coded hS e he
      · cases mem_singleton.1 he
        exact .inl (.inl rfl)
    · rw [Draft.labels, Draft.labels, map_append]
      exact prefix_append _ _

end Underway

/-! ## Verdicts -/

variable {α β : Type}

/-- A failure after which the assembly can be used as before. -/
structure Declines (P : Assembly → Prop) (a : Assembly) (e : Error) (b : Assembly) : Prop where
  reasoned : e.isInternal = false
  lengthens : a.draft.Lengthens b.draft
  restored : P b

/-- How a generator ends that was run on `a`, where `P` held, and succeeds exactly if `V` holds. -/
def Concludes (S : Setting) (P : Assembly → Prop) (a : Assembly) (V : Prop)
    (Q : α → Assembly → Prop) : EStateM.Result Error Assembly α → Prop
  | .ok x b => V ∧ a.draft.Lengthens b.draft ∧ Q x b
  | .error e b => S.Distinct → ¬ V ∧ Declines P a e b

/-- The generator, run where `P` holds, succeeds exactly if `V` does. -/
def Decides (S : Setting) (P : Assembly → Prop) (V : Prop) (g : Generate α)
    (Q : α → Assembly → Prop) : Prop :=
  ∀ a, P a → Concludes S P a V Q (g.run a)

/-- The generator can be run while the requests of `O` are open, and leaves them so. -/
abbrev Verdict (S : Setting) (O D : Set Request) (V : Prop) (g : Generate α) : Prop :=
  Decides S (Underway S O D) V g fun _ => Underway S O D

/-- What holds after a part of a generator includes what held before it. -/
class Leaves (Q P : Assembly → Prop) : Prop where
  leaves : ∀ a, Q a → P a

instance (P : Assembly → Prop) : Leaves P P := ⟨fun _ h => h⟩

instance (p : Prop) (P : Assembly → Prop) : Leaves (fun a => p ∧ P a) P := ⟨fun _ h => h.2⟩

namespace Decides

variable {P : Assembly → Prop} {V W : Prop} {g : Generate α} {k : α → Generate β}
  {Q : α → Assembly → Prop} {R : β → Assembly → Prop}

/-- Where nothing can collide, the generator succeeds exactly if `V` holds. -/
theorem exists_run_iff (h : Decides S P V g Q) (hS : S.Distinct) (ha : P a) :
    (∃ y b, g.run a = .ok y b) ↔ V := by
  have hg := h a ha
  cases hrun : g.run a with
  | error e b =>
    rw [hrun] at hg
    exact iff_of_false (fun ⟨_, _, hok⟩ => by cases hok) (hg hS).1
  | ok y b =>
    rw [hrun] at hg
    exact iff_of_true ⟨y, b, rfl⟩ hg.1

theorem of_run (h : Decides S P V g Q) (ha : P a) {y : α} (hrun : g.run a = .ok y b) :
    V ∧ a.draft.Lengthens b.draft ∧ Q y b := by
  have hg := h a ha
  rwa [hrun] at hg

theorem of_error (h : Decides S P V g Q) (hS : S.Distinct) (ha : P a) {e : Error}
    (hrun : g.run a = .error e b) : ¬ V ∧ Declines P a e b := by
  have hg := h a ha
  rw [hrun] at hg
  exact hg hS

theorem pure {y : α} (h : ∀ a, P a → Q y a) : Decides S P True (pure y) Q :=
  fun a ha => ⟨trivial, .refl _, h a ha⟩

theorem throw {e : Error} (he : e.isInternal = false) : Decides S P False (throw e) Q :=
  fun _ ha _ => ⟨id, he, .refl _, ha⟩

theorem congr (h : Decides S P V g Q) (hV : V ↔ W) : Decides S P W g Q := by
  rwa [← propext hV]

/-- What held before the first part still holds after it, so a failure of the second part leaves
it as well. -/
theorem bind (h : Decides S P V g Q) (hk : V → ∀ y, Decides S (Q y) W (k y) R)
    [hback : ∀ y, Leaves (Q y) P] :
    Decides S P (V ∧ W) (g >>= k) R := by
  intro a ha
  have hg := h a ha
  rw [EStateM.run_bind]
  cases hrun : g.run a with
  | error e b =>
    rw [hrun] at hg
    exact fun hS => ⟨fun hVW => (hg hS).1 hVW.1, (hg hS).2⟩
  | ok y b =>
    rw [hrun] at hg
    obtain ⟨hV, hlong, hQ⟩ := hg
    have hky := hk hV y b hQ
    dsimp only
    cases hrun' : (k y).run b with
    | error e c =>
      rw [hrun'] at hky
      intro hS
      obtain ⟨hW, hreason, hlong', hQ'⟩ := hky hS
      exact ⟨fun hVW => hW hVW.2, hreason, hlong.trans hlong', (hback y).leaves c hQ'⟩
    | ok z c =>
      rw [hrun'] at hky
      exact ⟨⟨hV, hky.1⟩, hlong.trans hky.2.1, hky.2.2⟩

/-- What comes after a generator that always succeeds decides. -/
theorem andThen (h : Decides S P True g Q) (hk : ∀ y, Decides S (Q y) V (k y) R)
    [hback : ∀ y, Leaves (Q y) P] :
    Decides S P V (g >>= k) R :=
  (bind h fun _ => hk).congr (iff_of_eq (true_and _))

/-- What comes before a generator that always succeeds decides. -/
theorem andFinally (h : Decides S P V g Q) (hk : V → ∀ y, Decides S (Q y) True (k y) R)
    [hback : ∀ y, Leaves (Q y) P] :
    Decides S P V (g >>= k) R :=
  (bind h hk).congr (iff_of_eq (and_true _))

theorem pure_bind {y : α} (h : Decides S P V (k y) R) : Decides S P V (Pure.pure y >>= k) R := h

theorem assume {p : Prop} (h : p → Decides S P V g Q) :
    Decides S (fun a => p ∧ P a) V g Q := by
  rintro a ⟨hp, ha⟩
  have hg := h hp a ha
  cases hrun : g.run a with
  | ok y b => rwa [hrun] at hg
  | error e b =>
    rw [hrun] at hg
    intro hS
    obtain ⟨hV, hreason, hlong, hb⟩ := hg hS
    exact ⟨hV, hreason, hlong, hp, hb⟩

theorem lift {y : Except Error α} {U : α → Prop} (hy : Reasoned y)
    (h : ∀ z, y = .ok z → Decides S P (U z) (k z) R) :
    Decides S P (∃ z, y = .ok z ∧ U z) (Codec.lift y >>= k) R := by
  cases y with
  | ok z => exact (h z rfl).congr (by simp)
  | error e =>
    refine fun a ha _ => ⟨?_, hy e rfl, .refl _, ha⟩
    rintro ⟨_, ⟨⟩, _⟩

theorem lift_ok {y : Except Error α} {z : α} (hy : y = .ok z) (h : Decides S P V (k z) R) :
    Decides S P V (Codec.lift y >>= k) R := by
  subst hy
  exact h

/-- What fails after a computation without effects fails in any case. -/
theorem lift_false {y : Except Error α} (hy : Reasoned y)
    (h : ∀ z, y = .ok z → Decides S P False (k z) R) :
    Decides S P False (Codec.lift y >>= k) R :=
  (lift (U := fun _ => False) hy h).congr (by simp)

theorem under {step : String} (h : Decides S P V g Q) : Decides S P V (Codec.under step g) Q := by
  intro a ha
  have hg := h a ha
  rw [Codec.under, run_tryCatch]
  cases hrun : g.run a with
  | ok y b => rwa [hrun] at hg
  | error e b =>
    rw [hrun] at hg
    intro hS
    obtain ⟨hV, hreason, hlong, hb⟩ := hg hS
    exact ⟨hV, by rwa [Error.isInternal_prepend], hlong, hb⟩

theorem importHost {c : Context} (hc : c.options.host = S.home) (f : HostFunc) :
    Verdict S O D True (Prelude.importHost c f) := by
  intro a ha
  have hrun : (Prelude.importHost c f).run a =
      .ok (a.draft.declareImport c.options.host f.name ⟨List.replicate f.arity .i32, []⟩).1
        { a with draft := (a.draft.declareImport c.options.host f.name
          ⟨List.replicate f.arity .i32, []⟩).2 } := rfl
  rw [hrun, hc]
  obtain ⟨hready, hlong⟩ := ha.declareImport f ⟨List.replicate f.arity .i32, []⟩
  exact ⟨trivial, hlong, hready⟩

/-- What a generator leaves that was asked for the function of an open request. -/
abbrev Answer (S : Setting) (O D : Set Request) (x : Request) (f : FuncId) (b : Assembly) : Prop :=
  Underway S O (insert x D) b ∧ (S.Distinct → b.draft.nameOf f = x.symbol ∧
    ∀ e ∈ b.draft.funcs, e.label = .defined x.symbol → e.IsCoded)

/-- What a generator leaves that was asked for the body of a function. -/
abbrev Body (S : Setting) (O D : Set Request) (y : List ValType × Code) (b : Assembly) : Prop :=
  (S.Distinct → y.1.length + 8 < UInt32.size) ∧ Underway S O D b

theorem body
    (h : decide (locals.length + 8 < UInt32.size) = true) :
    Decides S (Underway S O D) True (Pure.pure (locals, code)) (Body S O D) :=
  pure fun _ ha => ⟨fun _ => of_decide_eq_true h, ha⟩

/-- The claimed function of a request is completed. -/
theorem answer_complete (h : Underway S O (insert x D) b)
    (hf : S.Distinct → b.draft.labels[f.toNat]? = some (.defined x.symbol))
    (hlocals : S.Distinct → locals.length + 8 < UInt32.size) :
    Answer S O D x f { b with draft := b.draft.modify f (Entry.complete locals code) } := by
  have hlabels := Draft.labels_complete b.draft f locals code
  refine ⟨⟨h.opened_sub, h.claimed_sub, h.cached, h.opened, h.answered, hlabels ▸ h.defined,
    hlabels ▸ h.imported, hlabels ▸ h.nodup, fun hS e he => ?_, fun hS e he => ?_⟩,
    fun hS => ⟨Draft.nameOf_eq (hlabels ▸ hf hS), fun e he hlabel => ?_⟩⟩
  · obtain ⟨e', he', rfl⟩ | ⟨i, -, hi⟩ := Draft.mem_complete he
    · exact (h.small hS e' (mem_of_getElem? he')).complete (hlocals hS) code
    · exact h.small hS e (mem_of_getElem? hi)
  · obtain ⟨e', he', rfl⟩ | ⟨i, -, hi⟩ := Draft.mem_complete he
    · exact .inl (e'.isCoded_complete locals code)
    · exact h.coded hS e (mem_of_getElem? hi)
  · obtain ⟨e', he', rfl⟩ | ⟨i, hne, hi⟩ := Draft.mem_complete he
    · exact e'.isCoded_complete locals code
    · -- No two functions have one label.
      have hi' : b.draft.labels[i]? = some (.defined x.symbol) := by
        rw [Draft.labels, getElem?_map, hi, Option.map_some, hlabel]
      exact absurd ((getElem?_inj (List.getElem?_eq_some_iff.1 hi').1 h.nodup).1
        (hi'.trans (hf hS).symm)) hne

/-- A function is defined if its body can be made. A failure after its name was claimed could not be
taken back. -/
theorem define {params results : List ValType} {body : Generate (List ValType × Code)}
    (hx : x ∈ O) (hD : x ∉ D) (hparams : params.length ≤ 8)
    (h : Decides S (Underway S O (insert x D)) True body (Body S O (insert x D))) :
    Decides S (Underway S O D) True (define x.symbol params results body) (Answer S O D x) := by
  intro a ha
  rw [Makes.define_run]
  split_ifs with hdefined
  · rw [Draft.isSome_definition?] at hdefined
    exact fun hS => absurd hdefined (ha.not_mem_labels hS (ha.opened_sub hx) hD (.inl hx))
  rw [Draft.isSome_definition?] at hdefined
  have hclaim := ha.claim hx ⟨params, results⟩ hparams hdefined
  set claimed : Draft :=
    { a.draft with funcs := a.draft.funcs ++ [.claimed x.symbol ⟨params, results⟩] } with hclaimed
  have hlabels : claimed.labels = a.draft.labels ++ [.defined x.symbol] := by
    rw [Draft.labels, hclaimed, map_append]
    rfl
  have hbody := h _ hclaim
  cases hrun : body.run { a with draft := claimed } with
  | error e b =>
    rw [hrun] at hbody
    exact fun hS => absurd trivial (hbody hS).1
  | ok y b =>
    rw [hrun] at hbody
    obtain ⟨hV, hlong, hlocals, hready⟩ := hbody
    obtain ⟨more, hmore⟩ := hlong.labels_le
    rw [hlabels, append_assoc] at hmore
    refine ⟨hV, ⟨?_, hlong.exports_eq⟩,
      answer_complete hready (fun hS => ?_) hlocals⟩
    · rw [Draft.labels_complete, ← hmore]
      exact prefix_append _ _
    · have hlength := hready.length_le hS
      rw [← hmore, length_append, length_append, length_singleton,
        Draft.length_labels] at hlength
      have hid : a.draft.nextId.toNat = a.draft.funcs.length :=
        UInt32.toNat_ofNat_of_lt (by omega)
      rw [hid, ← hmore, ← Draft.length_labels]
      simp

theorem request {gen : String → Generate FuncId} (hx : x ∈ S.requests) (hopen : V → x ∉ O)
    (hanswered : S.answered x ↔ V)
    (h : (∀ t ∈ x.args, t.isConcrete = true) → x ∉ O → x ∉ D →
      Decides S (Underway S (insert x O) D) V (gen x.symbol) (Answer S (insert x O) D x)) :
    Verdict S O D ((∀ t ∈ x.args, t.isConcrete = true) ∧ V)
      (request x.kind x.args gen) := by
  intro a ha
  rw [request_run]
  split
  · rename_i t ht
    have hgeneric := find?_some ht
    refine fun _ => ⟨fun hV => ?_, rfl, .refl _, ha⟩
    simp [hV.1 t (mem_of_find?_eq_some ht)] at hgeneric
  rename_i hconcrete
  have hargs : ∀ t ∈ x.args, t.isConcrete = true := by
    intro t ht
    simpa using find?_eq_none.1 hconcrete t ht
  split
  · rename_i f hfind
    have hV := hanswered.1 (ha.answered x (by rw [Cache.lookup?, hfind]; rfl))
    exact ⟨⟨hargs, hV⟩, .refl _, ha⟩
  · rename_i hfind
    have hO : x ∈ O := (ha.exists_of_find? hfind).2.2.1 rfl
    exact fun _ => ⟨fun hV => hopen hV.2 hO, rfl, .refl _, ha⟩
  rename_i hfind
  have hO := ha.not_mem_of_find? hfind
  have hD : x ∉ D := fun hxD => hO (ha.claimed_sub hxD)
  split_ifs with htaken
  · exact fun hS =>
      absurd ((ha.taken_eq_false hS hx hfind).symm.trans htaken) Bool.false_ne_true
  have hgen := h hargs hO hD _ (ha.opening hx hfind)
  rw [← Request.symbol]
  cases hrun : (gen x.symbol).run (a.opening x.kind x.args) with
  | error e b =>
    rw [hrun] at hgen
    intro hS
    obtain ⟨hV, hreason, hlong, hb⟩ := hgen hS
    exact ⟨fun hV' => hV hV'.2, hreason, hlong, hb.dropping hO hD⟩
  | ok f b =>
    rw [hrun] at hgen
    obtain ⟨hV, hlong, hready, hname⟩ := hgen
    rw [settle]
    split_ifs with hsame
    · exact ⟨⟨hargs, hV⟩, hlong, hready.answering hO hD (hanswered.2 hV) (fun hS => (hname hS).2) f⟩
    · exact fun hS => absurd (hname hS).1 hsame

theorem request_generic {gen : String → Generate FuncId} {t : MoveType} (ht : t ∈ x.args)
    (hconcrete : t.isConcrete = false) {Q : FuncId → Assembly → Prop} :
    Decides S P False (Assembly.request x.kind x.args gen) Q := by
  intro a ha
  rw [request_run]
  split
  · exact fun _ => ⟨id, rfl, .refl _, ha⟩
  · rename_i hnone
    simpa [hconcrete] using find?_eq_none.1 hnone t ht

end Decides

end MoveCodec.Assembly
