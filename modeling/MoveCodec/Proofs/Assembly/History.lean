import MoveCodec.Proofs.Assembly.Request
import Mathlib.Data.List.Dedup

/-!
# Whole runs of the cache

A `Script` is what a generator can do: change the draft, request other functions, whose generators
are scripts again, and go on from their answers or failures. `Script.events` lists the requests of
a run in the order in which they ended. `Consistent` ties the list to the cache, each change of the
cache keeps it, and so it holds after every run.
-/
namespace MoveCodec.Assembly

open List

variable {args : List MoveType} {kind : String} {running : List Demand} {a : Assembly} {e : Cached}
  {f : FuncId}

/-! ## Scripts -/

/-- The number belongs to a function. -/
def Draft.holds (d : Draft) (f : FuncId) : Bool := (d.funcs[f.toNat]?).isSome

/-- A change of a draft that leaves the functions it has under their names. -/
structure Edit where
  onto : Draft → Draft
  names : ∀ (d : Draft) (i : Nat) (e : Entry), d.funcs[i]? = some e →
    ∃ e' : Entry, (onto d).funcs[i]? = some e' ∧ e'.name = e.name

namespace Edit

def claim (name : String) (type : Wasm.FuncType) : Edit where
  onto d := match d.claim name type with
    | .ok (_, d') => d'
    | .error _ => d
  names d i e h := by
    unfold Draft.claim
    split_ifs
    · exact ⟨e, h, rfl⟩
    · exact ⟨e, by rw [getElem?_append_left (List.getElem?_eq_some_iff.1 h).1, h], rfl⟩

def declareImport (home name : String) (type : Wasm.FuncType) : Edit where
  onto d := (d.declareImport home name type).2
  names d i e h := by
    dsimp only [Draft.declareImport]
    split
    · exact ⟨e, h, rfl⟩
    · exact ⟨e, by rw [getElem?_append_left (List.getElem?_eq_some_iff.1 h).1, h], rfl⟩

/-- Giving a function its body. -/
def complete (f : FuncId) (locals : List Wasm.ValType) (code : Wasm.Code) : Edit where
  onto d := d.modify f (Entry.complete locals code)
  names d i e h := by
    simp only [Draft.modify, getElem?_modify, h, Option.map_eq_map, Option.map_some]
    split_ifs
    · exact ⟨_, rfl, by cases e <;> rfl⟩
    · exact ⟨_, rfl, rfl⟩

end Edit

/-- What a generator does. -/
inductive Script where
  /-- Hands back a function, or fails if there is none with that number. -/
  | done (f : FuncId) (otherwise : Error)
  | fail (e : Error)
  | edit (change : Edit) (next : Assembly → Script)
  /-- Requests a function and goes on from the answer. -/
  | ask (kind : String) (args : List MoveType) (gen : String → Script)
      (next : Except Error FuncId → Script)

def Script.perform : Script → Generate FuncId
  | .done f otherwise => do
    if (← get).draft.holds f then return f else throw otherwise
  | .fail e => throw e
  | .edit change next => do
    editDraft change.onto
    (next (← get)).perform
  | .ask kind args gen next => do
    let r ← tryCatch (Except.ok <$> request kind args fun name => (gen name).perform)
      fun e => return .error e
    (next r).perform

/-- The assembly that a run leaves. -/
def left {α : Type} : EStateM.Result Error Assembly α → Assembly
  | .ok _ a => a
  | .error _ a => a

def answer {α : Type} : EStateM.Result Error Assembly α → Except Error α
  | .ok x _ => .ok x
  | .error e _ => .error e

abbrev Demand := String × List MoveType

/-- A request that has ended. -/
structure Event where
  /-- The requests whose generators were running when it was made. -/
  running : List Demand
  kind : String
  args : List MoveType
  /-- Its own generator was run. -/
  ran : Bool
  result : Except Error FuncId

/-- A request runs its generator. -/
def generates (a : Assembly) (kind : String) (args : List MoveType) : Bool :=
  (args.find? fun t => !t.isConcrete).isNone && (a.cache.find? (requestKey kind args)).isNone &&
    !a.taken (symbol kind args)

/-- The requests of a run, in the order in which they ended. -/
def Script.events : Script → List Demand → Assembly → List Event
  | .done .., _, _ => []
  | .fail _, _, _ => []
  | .edit change next, running, a =>
    let a := { a with draft := change.onto a.draft }
    (next a).events running a
  | .ask kind args gen next, running, a =>
    let r := (request kind args fun name => (gen name).perform).run a
    let inner :=
      if a.generates kind args then
        (gen (symbol kind args)).events ((kind, args) :: running) (a.opening kind args)
      else []
    inner ++ ⟨running, kind, args, a.generates kind args, answer r⟩ ::
      (next (answer r)).events running (left r)

/-! ## How a request ends -/

theorem request_of_generates (gen : String → Generate FuncId) (h : a.generates kind args = true) :
    (request kind args gen).run a =
      settle kind args ((gen (symbol kind args)).run (a.opening kind args)) := by
  simp only [generates, Bool.and_eq_true, Option.isNone_iff_eq_none, Bool.not_eq_true'] at h
  rw [request_run, h.1.1, h.1.2]
  simp [h.2]

/-- The entry of a request: still open, or with the function that an earlier request gave. -/
structure Stands (running : List Demand) (es : List Event) (d : Draft) (e : Cached)
    (kind : String) (args : List MoveType) : Prop where
  key : e.key = requestKey kind args
  name : e.name = symbol kind args
  concrete : (args.find? fun t => !t.isConcrete) = none
  isOpen : e.func = none → (kind, args) ∈ running
  isNamed : ∀ f, e.func = some f → ∃ x : Entry, d.funcs[f.toNat]? = some x ∧ x.name = symbol kind args
  isAnswer : ∀ f, e.func = some f →
    ∃ ev ∈ es, ev.kind = kind ∧ ev.args = args ∧ ev.result = .ok f

theorem Stands.append {es : List Event} {d : Draft} (h : Stands running es d e kind args)
    (ev : Event) : Stands running (es ++ [ev]) d e kind args := by
  refine { h with isAnswer := fun f hf => ?_ }
  obtain ⟨old, hold, hrest⟩ := h.isAnswer f hf
  exact ⟨old, mem_append_left _ hold, hrest⟩

/-- A later request for what `ev` was answered with gets the same answer. -/
def Event.Binds (ev later : Event) : Prop :=
  ∀ f, ev.result = .ok f → later.kind = ev.kind → later.args = ev.args →
    later.ran = false ∧ later.result = .ok f

/-- A request for something that is being generated is refused. -/
def Event.Guarded (ev : Event) : Prop :=
  (ev.kind, ev.args) ∈ ev.running →
    ev.ran = false ∧ ev.result = .error (stillRunning ev.kind ev.args)

structure Consistent (running : List Demand) (es : List Event) (a : Assembly) : Prop where
  keys : (a.cache.entries.map (·.key)).Nodup
  names : (a.cache.entries.map (·.name)).Nodup
  stands : ∀ e ∈ a.cache.entries, ∃ kind args, Stands running es a.draft e kind args
  isOpen : ∀ q ∈ running, ∃ e, a.cache.find? (requestKey q.1 q.2) = some e ∧ e.func = none
  answers : ∀ ev ∈ es, ∀ f, ev.result = .ok f → a.cache.lookup? ev.kind ev.args = some f
  guarded : ∀ ev ∈ es, ev.Guarded
  binds : es.Pairwise Event.Binds

namespace Consistent

variable {running : List Demand} {es : List Event} {a : Assembly} {kind : String}
  {args : List MoveType}

section

variable (h : Consistent running es a)

include h

/-- What is being generated has no answer. -/
theorem lookup?_of_mem (hq : (kind, args) ∈ running) :
    a.cache.lookup? kind args = none := by
  obtain ⟨e, he, hfunc⟩ := h.isOpen _ hq
  simp [Cache.lookup?, he, hfunc]

theorem not_mem_of_find? (hnone : a.cache.find? (requestKey kind args) = none) : (kind, args) ∉ running := by
  intro hq
  obtain ⟨e, he, _⟩ := h.isOpen _ hq
  rw [hnone] at he
  cases he

theorem edit (change : Edit) :
    Consistent running es { a with draft := change.onto a.draft } where
  keys := h.keys
  names := h.names
  stands e he := by
    obtain ⟨kind, args, hs⟩ := h.stands e he
    refine ⟨kind, args, hs.key, hs.name, hs.concrete, hs.isOpen, ?_, hs.isAnswer⟩
    intro f hf
    obtain ⟨x, hx, hname⟩ := hs.isNamed f hf
    obtain ⟨y, hy, hsame⟩ := change.names _ _ _ hx
    exact ⟨y, hy, hsame.trans hname⟩
  isOpen := h.isOpen
  answers := h.answers
  guarded := h.guarded
  binds := h.binds

/-- Opening an entry for a request whose generator is run. -/
theorem opening (hgen : a.generates kind args = true) :
    Consistent ((kind, args) :: running) es (a.opening kind args) := by
  simp only [generates, Bool.and_eq_true, Option.isNone_iff_eq_none, Bool.not_eq_true'] at hgen
  obtain ⟨⟨hargs, hnone⟩, hfree⟩ := hgen
  have hkey : ∀ e ∈ a.cache.entries, e.key ≠ requestKey kind args := by
    intro e he heq
    have := find?_eq_none.1 hnone e he
    simp [heq] at this
  have hname : ∀ e ∈ a.cache.entries, e.name ≠ symbol kind args := by
    intro e he heq
    have hused : a.cache.isTaken (symbol kind args) = true := by
      simpa [Cache.isTaken] using ⟨e, he, heq⟩
    simp [taken, hused] at hfree
  refine ⟨?_, ?_, ?_, ?_, ?_, h.guarded, h.binds⟩
  · simpa [Assembly.opening, Cache.opened, nodup_append, h.keys] using hkey
  · simpa [Assembly.opening, Cache.opened, nodup_append, h.names] using hname
  · intro e he
    simp only [Assembly.opening, Cache.opened, mem_append, mem_singleton] at he
    rcases he with he | rfl
    · obtain ⟨kind', args', hs⟩ := h.stands e he
      exact ⟨kind', args', hs.key, hs.name, hs.concrete, fun ho => .tail _ (hs.isOpen ho),
        hs.isNamed, hs.isAnswer⟩
    · exact ⟨kind, args, rfl, rfl, hargs, fun _ => .head _, by rintro _ ⟨⟩, by rintro _ ⟨⟩⟩
  · intro q hq
    rcases mem_cons.1 hq with rfl | hq
    · exact ⟨_, Cache.find?_opened_self hnone, rfl⟩
    · obtain ⟨e, he, hopen⟩ := h.isOpen q hq
      refine ⟨e, ?_, hopen⟩
      rw [Assembly.opening, Cache.find?_opened_of_ne, he]
      intro heq
      rw [← heq, hnone] at he
      cases he
  · intro ev hev f hf
    have hlook := h.answers ev hev f hf
    rw [Cache.lookup?, Assembly.opening, Cache.find?_opened_of_ne]
    · exact hlook
    · intro heq
      rw [Cache.lookup?, ← heq, hnone] at hlook
      cases hlook

end

/-- A request ends, with the answer that the cache has for it from then on. -/
theorem ended {running' : List Demand} {c : Cache} {ev : Event} (h : Consistent running' es a)
    (hkeys : (c.entries.map (·.key)).Nodup) (hnames : (c.entries.map (·.name)).Nodup)
    (hstands : ∀ e ∈ c.entries, ∃ kind args, Stands running (es ++ [ev]) a.draft e kind args)
    (hopen : ∀ q ∈ running, ∃ e, c.find? (requestKey q.1 q.2) = some e ∧ e.func = none)
    (hkept : ∀ old ∈ es, ∀ f, old.result = .ok f → c.lookup? old.kind old.args = some f)
    (hanswer : ∀ f, ev.result = .ok f → c.lookup? ev.kind ev.args = some f)
    (hguarded : ev.Guarded) (hbinds : ∀ old ∈ es, old.Binds ev) :
    Consistent running (es ++ [ev]) { a with cache := c } where
  keys := hkeys
  names := hnames
  stands := hstands
  isOpen := hopen
  answers := forall_mem_append.2 ⟨hkept, forall_mem_singleton.2 hanswer⟩
  guarded := forall_mem_append.2 ⟨h.guarded, forall_mem_singleton.2 hguarded⟩
  binds := pairwise_append.2 ⟨h.binds, pairwise_singleton _ _, fun old hold =>
    forall_mem_singleton.2 (hbinds old hold)⟩

section

variable (h : Consistent ((kind, args) :: running) es a)

include h

/-- The generator of a request has ended. Its entry was taken out or completed, and the other
entries are as they were. -/
theorem close (hq : (kind, args) ∉ running)
    {c : Cache} {ran : Bool} {result : Except Error FuncId}
    (hkeys : (c.entries.map (·.key)).Nodup) (hnames : (c.entries.map (·.name)).Nodup)
    (hother : ∀ {key}, requestKey kind args ≠ key → c.find? key = a.cache.find? key)
    (hentries : ∀ e ∈ c.entries, (e ∈ a.cache.entries ∧ e.key ≠ requestKey kind args) ∨
      Stands running (es ++ [⟨running, kind, args, ran, result⟩]) a.draft e kind args)
    (hself : ∀ f, result = .ok f → c.lookup? kind args = some f) :
    Consistent running (es ++ [⟨running, kind, args, ran, result⟩]) { a with cache := c } := by
  have hnone := h.lookup?_of_mem (.head _)
  refine h.ended hkeys hnames (fun e he => ?_) (fun q hin => ?_) (fun old hold f hf => ?_) hself
    (fun hin => absurd hin hq) fun old hold f hf hkind hargs => ?_
  · rcases hentries e he with ⟨hmem, hne⟩ | hs
    · obtain ⟨kind', args', hs⟩ := h.stands e hmem
      refine ⟨kind', args', { hs.append _ with isOpen := fun ho => ?_ }⟩
      rcases mem_cons.1 (hs.isOpen ho) with heq | hin
      · obtain ⟨rfl, rfl⟩ := Prod.mk.inj heq
        exact absurd hs.key hne
      · exact hin
    · exact ⟨kind, args, hs⟩
  · obtain ⟨e, he, hopen⟩ := h.isOpen q (.tail _ hin)
    refine ⟨e, (hother fun heq => ?_).trans he, hopen⟩
    obtain ⟨rfl, rfl⟩ := requestKey_inj heq
    exact hq hin
  · have hlook := h.answers old hold f hf
    rw [Cache.lookup?, hother]
    · exact hlook
    · intro heq
      obtain ⟨rfl, rfl⟩ := requestKey_inj heq
      rw [hnone] at hlook
      cases hlook
  · have hlook := h.answers old hold f hf
    dsimp only at hkind hargs
    rw [← hkind, ← hargs, hnone] at hlook
    cases hlook

/-- Taking out the entry of a generator that failed. -/
theorem dropping (hq : (kind, args) ∉ running)
    (ran : Bool) (e : Error) :
    Consistent running (es ++ [⟨running, kind, args, ran, .error e⟩]) (a.dropping kind args) := by
  refine h.close hq (h.keys.sublist (filter_sublist.map _))
    (h.names.sublist (filter_sublist.map _)) Cache.find?_erase_of_ne (fun x hx => .inl ?_) nofun
  obtain ⟨hmem, hkey⟩ := mem_filter.1 hx
  exact ⟨hmem, by simpa using hkey⟩

/-- Completing the entry of a generator that gave a function of the name it was asked for. -/
theorem answering (hq : (kind, args) ∉ running) (ran : Bool) {x : Entry}
    (hx : a.draft.funcs[f.toNat]? = some x) (hname : x.name = symbol kind args) :
    Consistent running (es ++ [⟨running, kind, args, ran, .ok f⟩]) (a.answering kind args f) := by
  have hkept : ∀ {β : Type} (part : Cached → β), (∀ e, part (Cached.filled f e) = part e) →
      (a.answering kind args f).cache.entries.map part = a.cache.entries.map part := by
    intro β part hpart
    simp only [Assembly.answering, Cache.complete, map_map]
    refine map_congr_left fun e _ => ?_
    simp only [Function.comp_apply]
    split_ifs
    · exact hpart e
    · rfl
  refine h.close hq ((hkept (·.key) fun _ => rfl) ▸ h.keys) ((hkept (·.name) fun _ => rfl) ▸ h.names)
    (fun hkey => Cache.find?_complete.trans (if_neg hkey)) (fun e he => ?_) ?_
  · obtain ⟨e₀, he₀, rfl⟩ := mem_map.1 he
    by_cases hkey : e₀.key = requestKey kind args
    · obtain ⟨kind', args', hs⟩ := h.stands e₀ he₀
      obtain ⟨rfl, rfl⟩ := requestKey_inj (hs.key.symm.trans hkey)
      simp only [hkey, beq_self_eq_true, if_true]
      refine .inr ⟨rfl, hs.name, hs.concrete, fun hopen => (by cases hopen), ?_, ?_⟩
      · rintro _ ⟨⟩
        exact ⟨x, hx, hname⟩
      · rintro _ ⟨⟩
        exact ⟨_, mem_concat_self, rfl, rfl, rfl⟩
    · simp only [hkey, beq_iff_eq, if_false]
      exact .inl ⟨he₀, hkey⟩
  · rintro _ ⟨⟩
    obtain ⟨e, he, _⟩ := h.isOpen _ (.head _)
    rw [Cache.lookup?, Cache.find?_complete, if_pos rfl, he]
    rfl

end

/-- How a request ends whose generator was run. -/
theorem settle (h : Consistent running es a) (hgen : a.generates kind args = true)
    (gen : String → Generate FuncId) {inner : List Event}
    (hinner : Consistent ((kind, args) :: running) (es ++ inner)
      (left ((gen (symbol kind args)).run (a.opening kind args))))
    (hholds : ∀ f b, (gen (symbol kind args)).run (a.opening kind args) = .ok f b →
      b.draft.holds f = true) :
    Consistent running
      (es ++ inner ++ [⟨running, kind, args, true, answer ((request kind args gen).run a)⟩])
      (left ((request kind args gen).run a)) := by
  have hq : (kind, args) ∉ running := by
    simp only [generates, Bool.and_eq_true, Option.isNone_iff_eq_none] at hgen
    exact h.not_mem_of_find? hgen.1.2
  rw [request_of_generates gen hgen]
  generalize hrun : (gen (symbol kind args)).run (a.opening kind args) = r at hinner hholds
  cases r with
  | error e b => exact hinner.dropping hq true e
  | ok f b =>
    dsimp only [Assembly.settle]
    split_ifs with hname
    · obtain ⟨x, hx⟩ := Option.isSome_iff_exists.1 (hholds f b rfl)
      refine hinner.answering hq true hx ?_
      simpa [Draft.nameOf, left, hx] using hname
    · exact hinner.dropping hq true _

end Consistent

namespace Consistent

variable {es : List Event} {a : Assembly} {kind : String} {args : List MoveType} {f : FuncId}

end Consistent

end MoveCodec.Assembly
