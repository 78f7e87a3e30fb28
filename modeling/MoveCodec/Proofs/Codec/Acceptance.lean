import MoveCodec.Proofs.Codec.TupleVerdicts

/-!
# Codecs in a module that is under way

A module may already hold functions when a codec is requested. As long as each of them was generated
for a request, what is accepted does not depend on them.
-/
namespace MoveCodec

namespace Assembly

open Machine Wasm Codec

def Requested (a : Assembly) (x : Request) : Prop := ∃ e ∈ a.cache.entries, e.key = x.key

/-- Every function of the module is the allocator, a function of the host, or one that was generated
for a request, and each has its whole body. -/
structure Tidy (home : String) (a : Assembly) : Prop where
  cached : ∀ e ∈ a.cache.entries, e.func ≠ none ∧ ∃ x : Request, e.key = x.key ∧ e.name = x.symbol
  defined : ∀ name, .defined name ∈ a.draft.labels →
    name = "allocate" ∨ ∃ e ∈ a.cache.entries, e.name = name
  imported : ∀ module name, .imported module name ∈ a.draft.labels →
    module = home ∧ name ∈ HostFunc.all.map HostFunc.name
  nodup : a.draft.labels.Nodup
  coded : ∀ e ∈ a.draft.funcs, e.IsCoded

/-- Requests can be added: no two have the same symbol, and there are numbers for their functions
and locals. -/
structure Accommodates (a : Assembly) (xs : List Request) : Prop where
  symbol_inj : ∀ x y, x ∈ xs ∨ a.Requested x → y ∈ xs ∨ a.Requested y → x.symbol = y.symbol → x = y
  symbol_ne : ∀ x, x ∈ xs ∨ a.Requested x → x.symbol ≠ "allocate"
  room : a.cache.entries.length + xs.length + (1 + HostFunc.all.length) ≤ UInt32.size
  args_le : ∀ x, x ∈ xs ∨ a.Requested x → 4 * x.args.length + 16 ≤ UInt32.size
  small : ∀ e ∈ a.draft.funcs, e.Small

theorem Accommodates.of_subset {a : Assembly} {xs ys : List Request} (h : a.Accommodates xs)
    (hsub : ∀ y ∈ ys, y ∈ xs) (hlength : ys.length ≤ xs.length) : a.Accommodates ys where
  symbol_inj x y hx hy := h.symbol_inj x y (hx.imp_left (hsub x)) (hy.imp_left (hsub y))
  symbol_ne x hx := h.symbol_ne x (hx.imp_left (hsub x))
  room := by
    have := h.room
    omega
  args_le x hx := h.args_le x (hx.imp_left (hsub x))
  small := h.small

/-- The requests that were made or are to be made. -/
def scope (a : Assembly) (xs : List Request) : Set Request := {x | x ∈ xs ∨ a.Requested x}

theorem encard_scope_le (a : Assembly) (xs : List Request) :
    (a.scope xs).encard ≤ (a.cache.entries.length + xs.length : Nat) := by
  classical
  have hinj : Function.Injective Request.key := fun _ _ => Request.eq_of_key_eq
  have hsub : Request.key '' a.scope xs ⊆
      ((a.cache.entries.map (·.key) ++ xs.map Request.key).toFinset : Set Bytes) := by
    rintro _ ⟨x, hx | ⟨e, he, hkey⟩, rfl⟩
    · simpa using .inr ⟨x, hx, rfl⟩
    · simpa using .inl ⟨e, he, hkey⟩
  calc (a.scope xs).encard = (Request.key '' a.scope xs).encard := (hinj.encard_image _).symm
    _ ≤ _ := Set.encard_le_encard hsub
    _ ≤ _ := by
      rw [Set.encard_coe_eq_coe_finsetCard]
      refine Nat.cast_le.2 ((List.toFinset_card_le _).trans ?_)
      simp

section

variable {c : Context} {a : Assembly} {xs : List Request} {J : Set Request}

theorem Accommodates.distinct (h : a.Accommodates xs) (hsized : Sized c.registry) :
    (judging c (a.scope xs) J).Distinct where
  symbol_inj x hx y hy := h.symbol_inj x y hx hy
  symbol_ne := h.symbol_ne
  room := by
    refine (add_le_add_left (encard_scope_le a xs) _).trans ?_
    exact_mod_cast h.room
  sized := ⟨hsized, h.args_le⟩

/-- What is to be generated does not depend on a tidy module that has none of it yet. -/
theorem Tidy.underway {N : Set Request} (h : a.Tidy c.options.host) (hN : ∀ x, a.Requested x → x ∈ N)
    (hJ : ∀ x ∈ J, a.cache.lookup? x.kind x.args = none)
    (hsmall : (judging c N J).Distinct → ∀ e ∈ a.draft.funcs, e.Small) :
    Underway (judging c N J) ∅ ∅ a where
  opened_sub := Set.empty_subset _
  claimed_sub := Set.empty_subset _
  cached e he := by
    obtain ⟨hfunc, x, hkey, hname⟩ := h.cached e he
    exact ⟨x, hN x ⟨e, he, hkey⟩, hkey, hname, by simpa using hfunc⟩
  opened x hx := absurd hx (Set.notMem_empty x)
  answered x hx hxJ := by
    rw [hJ x hxJ] at hx
    cases hx
  defined name hname := by
    rcases h.defined name hname with hallocate | ⟨e, he, rfl⟩
    · exact .inl hallocate
    · obtain ⟨-, x, hkey, hsymbol⟩ := h.cached e he
      exact .inr ⟨x, hN x ⟨e, he, hkey⟩, hsymbol, .inr ⟨Set.notMem_empty x, e, he, hkey⟩⟩
  imported := h.imported
  nodup := h.nodup
  small := hsmall
  coded _ e he := .inl (h.coded e he)

end

end Assembly

namespace Codec

open Assembly

variable {c : Context} {a : Assembly} {J : Set Request}

/-- If any request may occur, nothing is known about collisions. -/
theorem not_distinct_univ : ¬ (judging c Set.univ J).Distinct := by
  intro h
  have hargs (n : Nat) : 4 * n + 16 ≤ UInt32.size := by
    simpa using h.sized.2 ⟨"", List.replicate n .bool⟩ trivial
  have := hargs UInt32.size
  omega

section

variable (hr : c.registry.Made) (hsized : Sized c.registry) (ha : a.Tidy c.options.host)

include hsized ha

theorem exists_run_iff {xs : List Request} {V : Prop} {g : Generate FuncId}
    (hroom : a.Accommodates (routines ++ xs))
    (h : Quiet (a.scope (routines ++ xs)) ∅ → (∀ x ∈ xs, x ∈ a.scope (routines ++ xs)) →
      Verdict (judging c (a.scope (routines ++ xs)) ∅) ∅ ∅ V g) :
    (∃ f b, g.run a = .ok f b) ↔ V := by
  have hq : Quiet (a.scope (routines ++ xs)) ∅ :=
    ⟨fun x hx => .inl (List.mem_append_left _ hx), fun x hx => absurd hx (Set.notMem_empty x)⟩
  refine (h hq fun x hx => .inl (List.mem_append_right _ hx)).exists_run_iff (hroom.distinct hsized)
    (ha.underway (fun x hx => .inr hx) ?_ fun _ => hroom.small)
  exact fun x hx => absurd hx (Set.notMem_empty x)

include hr

theorem exists_pack_iff {t : MoveType} (ht : t.isConcrete = true)
    (hroom : a.Accommodates (routines ++ packRequests c.registry t)) :
    (∃ f b, (pack c t).run a = .ok f b) ↔ (c.registry.shape t).Classed c.registry :=
  exists_run_iff hsized ha hroom fun hq hxs => decides_pack hr (allows_pack hq ht hxs)

theorem exists_unpack_iff {t : MoveType} (ht : t.isConcrete = true)
    (hroom : a.Accommodates (routines ++ unpackRequests c.registry t)) :
    (∃ f b, (unpack c t).run a = .ok f b) ↔ Decodable c.registry t :=
  exists_run_iff hsized ha hroom fun hq hxs => decides_unpack hr (allows_unpack hq ht hxs)

end

end Codec

end MoveCodec
