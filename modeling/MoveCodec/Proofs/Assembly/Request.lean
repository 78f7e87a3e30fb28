import MoveCodec.Proofs.Assembly.Keys

/-!
# What a request does

`request_run` says how a request ends: it is refused, it is answered from the cache, or its
generator runs on a cache with an open entry for it, which is completed or taken out again. The
lemmas on `Cache` say what each of these changes does to later searches.
-/
namespace MoveCodec.Assembly

open List

variable {a : Assembly} {kind kind' : String} {args args' : List MoveType}

/-! ## Entries of the cache -/

/-- The entry with its function. -/
def Cached.filled (f : FuncId) (e : Cached) : Cached := { e with func := some f }

namespace Cache

variable {c : Cache} {key other : Bytes} {name : String} {f : FuncId}

/-- The cache with an entry that is not generated yet. -/
def opened (c : Cache) (key : Bytes) (name : String) : Cache :=
  { entries := c.entries ++ [{ key, name }], runs := c.runs + 1 }

theorem find?_opened_of_ne (h : key ≠ other) :
    (c.opened key name).find? other = c.find? other := by
  simp [find?, opened, h]

theorem find?_opened_self (h : c.find? key = none) :
    (c.opened key name).find? key = some { key, name } := by
  simp only [find?] at h
  simp [find?, opened, h]

theorem find?_erase_of_ne (h : key ≠ other) : (c.erase key).find? other = c.find? other := by
  unfold find? erase
  rw [find?_filter]
  congr 1
  funext e
  by_cases he : e.key = other
  · simp [he, h.symm]
  · simp [he]

theorem find?_erase_self : (c.erase key).find? key = none := by
  simp [find?, erase]

theorem find?_complete : (c.complete key f).find? other =
    if key = other then (c.find? other).map (Cached.filled f) else c.find? other := by
  unfold find? complete
  generalize c.entries = es
  induction es with
  | nil => simp
  | cons e es ih =>
    simp only [map_cons, find?_cons] at ih ⊢
    rw [ih]
    rcases eq_or_ne key other with rfl | hkey <;> by_cases he : e.key = key
    · simp [he, Cached.filled]
    · simp [beq_false_of_ne he]
    · simp [he, hkey, beq_false_of_ne hkey]
    · simp [he, hkey]

/-- The entry that is found has the key that was asked for. -/
theorem key_of_find? {e : Cached} (h : c.find? key = some e) : e.key = key := by
  simpa using find?_some h

end Cache

/-! ## Requests -/

def genericArgument (kind : String) (a : MoveType) : Error :=
  .report { phase := some .cache, kind := some .foundTypeParameter, subject := a.render,
            detail := kind ++ " requested with a generic argument" }

/-- The refusal of a request for something that is being generated. -/
def stillRunning (kind : String) (args : List MoveType) : Error :=
  .report { phase := some .cache, kind := some .instantiation, subject := typesText args,
            detail := "recursive instantiation of " ++ symbol kind args }

/-- The refusal of a generator's result that is not the function it was asked for. -/
def otherFunction (kind : String) (args : List MoveType) (got : String) : Error :=
  .internal .cache ("generator for " ++ symbol kind args ++ " returned " ++ Text.quote got)

/-- The symbol of a request is in use, by another entry or by a function of the draft. -/
def taken (a : Assembly) (name : String) : Bool :=
  a.cache.isTaken name || (a.draft.definition? name).isSome

/-- The assembly on which the generator of a request runs. -/
def opening (a : Assembly) (kind : String) (args : List MoveType) : Assembly :=
  { a with cache := a.cache.opened (requestKey kind args) (symbol kind args) }

/-- The assembly after a generator failed. -/
def dropping (a : Assembly) (kind : String) (args : List MoveType) : Assembly :=
  { a with cache := a.cache.erase (requestKey kind args) }

/-- The assembly after a generator gave its function. -/
def answering (a : Assembly) (kind : String) (args : List MoveType) (f : FuncId) : Assembly :=
  { a with cache := a.cache.complete (requestKey kind args) f }

/-- An open entry gives no answer. -/
theorem lookup?_opening
    {f : FuncId} (hnone : a.cache.find? (requestKey kind args) = none)
    (h : (a.opening kind args).cache.lookup? kind' args' = some f) :
    a.cache.lookup? kind' args' = some f := by
  by_cases hkey : requestKey kind args = requestKey kind' args'
  · rw [Cache.lookup?, ← hkey, opening, Cache.find?_opened_self hnone] at h
    cases h
  · rwa [Cache.lookup?, opening, Cache.find?_opened_of_ne hkey] at h

theorem lookup?_dropping
    {f : FuncId} (h : (a.dropping kind args).cache.lookup? kind' args' = some f) :
    a.cache.lookup? kind' args' = some f := by
  by_cases hkey : requestKey kind args = requestKey kind' args'
  · rw [Cache.lookup?, ← hkey, dropping, Cache.find?_erase_self] at h
    cases h
  · rwa [Cache.lookup?, dropping, Cache.find?_erase_of_ne hkey] at h

theorem lookup?_answering
    {f g : FuncId} (h : (a.answering kind args f).cache.lookup? kind' args' = some g) :
    a.cache.lookup? kind' args' = some g ∨ (kind' = kind ∧ args' = args ∧ g = f) := by
  by_cases hkey : requestKey kind args = requestKey kind' args'
  · rw [Cache.lookup?, ← hkey, answering, Cache.find?_complete, if_pos rfl] at h
    obtain ⟨rfl, rfl⟩ := requestKey_inj hkey
    obtain ⟨e, he, hfunc⟩ := Option.bind_eq_some_iff.1 h
    obtain ⟨e₀, _, rfl⟩ := Option.map_eq_some_iff.1 he
    exact .inr ⟨rfl, rfl, (Option.some.inj hfunc).symm⟩
  · rw [Cache.lookup?, answering, Cache.find?_complete, if_neg hkey] at h
    exact .inl h

/-- How a request ends whose generator ended in `r`. -/
def settle (kind : String) (args : List MoveType) :
    EStateM.Result Error Assembly FuncId → EStateM.Result Error Assembly FuncId
  | .ok f a =>
    if a.draft.nameOf f = symbol kind args then .ok f (a.answering kind args f)
    else .error (otherFunction kind args (a.draft.nameOf f)) (a.dropping kind args)
  | .error e a => .error e (a.dropping kind args)

/-- A generator keeps its changes when it fails, so a handler goes on from them. -/
theorem run_tryCatch {α : Type} (g : Generate α) (handle : Error → Generate α) (a : Assembly) :
    (tryCatch g handle).run a =
      match g.run a with
      | .ok x b => .ok x b
      | .error e b => (handle e).run b := by
  change (EStateM.tryCatch g handle) a = _
  unfold EStateM.tryCatch
  cases hg : g a with
  | ok x b => simp only [EStateM.run, hg]
  | error e b => simp only [EStateM.run, hg]; rfl

theorem request_run (kind : String) (args : List MoveType) (gen : String → Generate FuncId)
    (a : Assembly) :
    (request kind args gen).run a =
      match args.find? fun t => !t.isConcrete with
      | some t => .error (genericArgument kind t) a
      | none =>
        match a.cache.find? (requestKey kind args) with
        | some { func := some f, .. } => .ok f a
        | some { func := none, .. } => .error (stillRunning kind args) a
        | none =>
          if a.taken (symbol kind args) then .error (symbolTaken (symbol kind args) args) a
          else settle kind args ((gen (symbol kind args)).run (a.opening kind args)) := by
  unfold request
  cases hgeneric : args.find? fun t => !t.isConcrete with
  | some t => rfl
  | none =>
    simp only [EStateM.run_bind, EStateM.run_get]
    cases hfind : a.cache.find? (requestKey kind args) with
    | some e =>
      obtain ⟨key, name, func⟩ := e
      cases func <;> rfl
    | none =>
      simp only [EStateM.run_bind, EStateM.run_get]
      by_cases htaken : a.taken (symbol kind args) = true
      · rw [if_pos htaken]
        unfold taken at htaken
        rw [if_pos htaken]
        rfl
      · rw [if_neg htaken]
        unfold taken at htaken
        rw [if_neg htaken]
        simp only [editCache, EStateM.run_bind, run_tryCatch, EStateM.run_modify, opening,
          Cache.opened]
        generalize (gen (symbol kind args)).run _ = result
        cases result with
        | error e b => rfl
        | ok f b =>
          simp only [EStateM.run_get]
          by_cases hname : b.draft.nameOf f = symbol kind args
          · simp only [settle, hname, if_true, ne_eq, not_true, if_false]
            rfl
          · simp only [settle, hname, if_false, ne_eq, not_false_eq_true, if_true]
            rfl

end MoveCodec.Assembly
