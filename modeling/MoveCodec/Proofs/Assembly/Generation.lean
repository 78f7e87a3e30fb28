import MoveCodec.Proofs.Assembly.Link
import MoveCodec.Proofs.Assembly.Request
import MoveCodec.Proofs.Codec.Fragments

/-!
# What generators make

`Makes S H g Q` says that whatever `g` gives satisfies `Q` in the program of every draft that the
assembly can grow into, if `H` holds in all of them already. It relies on the cache: a function that
is cached for a request satisfies what the table of `S` has for that request, every function that is
done satisfies what `S` has for all, and `g` leaves the assembly so. There is one rule for each way
to make a generator, so what a generator makes follows its text.
-/
namespace MoveCodec.Assembly

open Wasm Machine List

variable {a : Assembly} {body : Generate (List ValType × Code)} {params results : List ValType}

/-! ## Growing drafts -/

/-- The function has its body. -/
def Entry.isDone : Entry → Bool
  | .imported .. => true
  | .defined _ _ _ _ finished => finished

namespace Draft

/-- All functions are kept, and new ones come after them; globals, memory and data are the same. A
draft with more functions than can be numbered is of no use. -/
structure Extends (d d' : Draft) : Prop where
  length_le : d.funcs.length ≤ d'.funcs.length
  funcs_le : d'.funcs.length ≤ UInt32.size → d.funcs <+: d'.funcs
  globals_eq : d'.globals = d.globals
  memory_eq : d'.memory = d.memory
  data_eq : d'.data = d.data

/-- The functions that are done are kept. -/
def Keeps (d d' : Draft) : Prop :=
  d.funcs.length ≤ d'.funcs.length ∧ (d'.funcs.length ≤ UInt32.size →
    ∀ (i : Nat) (e : Entry), d.funcs[i]? = some e → e.isDone = true → d'.funcs[i]? = some e)

variable {d d' d'' : Draft}

theorem Extends.refl (d : Draft) : d.Extends d :=
  ⟨Nat.le_refl _, fun _ => prefix_refl _, rfl, rfl, rfl⟩

theorem Extends.trans (h : d.Extends d') (h' : d'.Extends d'') : d.Extends d'' where
  length_le := h.length_le.trans h'.length_le
  funcs_le hle := (h.funcs_le (h'.length_le.trans hle)).trans (h'.funcs_le hle)
  globals_eq := h'.globals_eq.trans h.globals_eq
  memory_eq := h'.memory_eq.trans h.memory_eq
  data_eq := h'.data_eq.trans h.data_eq

theorem Keeps.refl (d : Draft) : d.Keeps d := ⟨Nat.le_refl _, fun _ _ _ h _ => h⟩

theorem Keeps.trans (h : d.Keeps d') (h' : d'.Keeps d'') : d.Keeps d'' :=
  ⟨h.1.trans h'.1, fun hle i e hi he => h'.2 hle i e (h.2 (h'.1.trans hle) i e hi he) he⟩

theorem Extends.keeps (h : d.Extends d') : d.Keeps d' := by
  refine ⟨h.length_le, fun hle i e hi _ => ?_⟩
  obtain ⟨rest, hrest⟩ := h.funcs_le hle
  rw [← hrest, getElem?_append_left (List.getElem?_eq_some_iff.1 hi).1, hi]

theorem extends_append (d : Draft) (e : Entry) :
    d.Extends { d with funcs := d.funcs ++ [e] } :=
  ⟨by simp, fun _ => prefix_append _ _, rfl, rfl, rfl⟩

end Draft

/-! ## Definitions -/

def Entry.claimed (name : String) (type : FuncType) : Entry := .defined name type [] [] false

/-- A definition with its body. -/
def Entry.coded (name : String) (type : FuncType) (locals : List ValType) (code : Code) : Entry :=
  .defined name type locals (Code.flatten code ++ [.endMark]) true

theorem Entry.callee_coded (name : String) (type : FuncType) (locals : List ValType)
    (code : Code) : (Entry.coded name type locals code).callee = .code type locals code := by
  simp [Entry.coded, Entry.callee, Code.nest?_flatten]

namespace Draft

variable {d b : Draft} {name : String} {type : FuncType} {locals : List ValType} {code : Code}

/-- Completing the function that was claimed first in a draft that has grown since. -/
theorem funcs_modify_claimed
    (h : ({ d with funcs := d.funcs ++ [.claimed name type] } : Draft).Extends b)
    (hle : b.funcs.length ≤ UInt32.size) :
    d.nextId.toNat = d.funcs.length ∧ ∃ rest,
      b.funcs = d.funcs ++ .claimed name type :: rest ∧
      (b.modify d.nextId (Entry.complete locals code)).funcs =
        d.funcs ++ .coded name type locals code :: rest := by
  obtain ⟨rest, hrest⟩ := h.funcs_le hle
  simp only [append_assoc, cons_append, nil_append] at hrest
  have hlt : d.funcs.length < UInt32.size := by
    have := h.length_le
    simp only [length_append, length_singleton] at this
    omega
  have hid : d.nextId.toNat = d.funcs.length := UInt32.toNat_ofNat_of_lt hlt
  refine ⟨hid, rest, hrest.symm, ?_⟩
  rw [modify, hid, ← hrest]
  simp [modify_eq_set_getElem?, Entry.complete, Entry.claimed, Entry.coded]

end Draft

/-- Holds of the program of every draft that keeps the functions of `d`. -/
def Always (d : Draft) (P : Program → Prop) : Prop :=
  ∀ (d' : Draft) (types : Array FuncType), d.Keeps d' → d'.Fits → P (d'.program types)

section

variable {d d' : Draft} {P Q : Program → Prop}

theorem Always.mono (h : Always d P) (hd : d.Keeps d') : Always d' P :=
  fun d'' types hd' hfits => h d'' types (hd.trans hd') hfits

theorem Always.imp (h : Always d P) (himp : ∀ p, P p → Q p) : Always d Q :=
  fun d' types hd hfits => himp _ (h d' types hd hfits)

theorem Always.and (hP : Always d P) (hQ : Always d Q) : Always d fun p => P p ∧ Q p :=
  fun d' types hd hfits => ⟨hP d' types hd hfits, hQ d' types hd hfits⟩

/-- A function that is done stands under its number in every program. -/
theorem always_callee {f : FuncId} {e : Entry} (h : d.funcs[f.toNat]? = some e)
    (he : e.isDone = true) : Always d fun p => p.funcs[f.toNat]? = some e.callee := by
  intro d' types hd hfits
  simp [Draft.program, hd.2 hfits.funcs_le _ _ h he]

end

/-! ## Generators -/

/-- What the function of a request satisfies in a program. -/
abbrev Table := String → List MoveType → FuncId → Program → Prop

/-- What generated functions satisfy: those of requests, and all of them. -/
structure Spec where
  table : Table
  each : Entry → Program → Prop

/-- Nothing is said about functions that nobody requests. -/
abbrev Table.spec (T : Table) : Spec := ⟨T, fun _ _ => True⟩

instance : Coe Table Spec := ⟨Table.spec⟩

variable {S : Spec} {α β : Type}

structure Sound (S : Spec) (a : Assembly) : Prop where
  cached : ∀ kind args f, a.cache.lookup? kind args = some f → Always a.draft (S.table kind args f)
  done : ∀ (i : Nat) (e : Entry), a.draft.funcs[i]? = some e → e.isDone = true →
    Always a.draft (S.each e)

theorem Sound.recache {c : Cache} (h : Sound S a)
    (hc : ∀ kind args f, c.lookup? kind args = some f → Always a.draft (S.table kind args f)) :
    Sound S { a with cache := c } :=
  ⟨hc, h.done⟩

/-- Growing keeps soundness if what is new, or newly done, satisfies what all functions do. -/
theorem Sound.grow {d : Draft} (h : Sound S a) (hd : a.draft.Keeps d)
    (hnew : ∀ (i : Nat) (e : Entry), d.funcs[i]? = some e → e.isDone = true →
      a.draft.funcs[i]? = some e ∨ Always d (S.each e)) :
    Sound S { a with draft := d } where
  cached kind args f hf := (h.cached kind args f hf).mono hd
  done i e hi he := by
    rcases hnew i e hi he with hold | hall
    · exact (h.done i e hold he).mono hd
    · exact hall

/-- How a generator ends that was run on `a`. -/
def Ends (S : Spec) (a : Assembly) (Q : α → Program → Prop) :
    EStateM.Result Error Assembly α → Prop
  | .ok x b => Sound S b ∧ a.draft.Extends b.draft ∧ Always b.draft (Q x)
  | .error _ b => Sound S b ∧ a.draft.Extends b.draft

/-- What the generator gives satisfies `Q`, if it is run where `H` holds. -/
def Makes (S : Spec) (H : Program → Prop) (g : Generate α) (Q : α → Program → Prop) : Prop :=
  ∀ a, Sound S a → Always a.draft H → Ends S a Q (g.run a)

namespace Makes

variable {H : Program → Prop} {g : Generate α} {k : α → Generate β} {Q : α → Program → Prop}
  {R : β → Program → Prop}

theorem pure {x : α} (h : ∀ p, H p → Q x p) : Makes S H (pure x) Q :=
  fun _ ha hH => ⟨ha, .refl _, hH.imp h⟩

theorem throw (e : Error) : Makes S H (throw e) Q := fun _ ha _ => ⟨ha, .refl _⟩

/-- What held before still holds when the generator has ended. -/
theorem keep (h : Makes S H g Q) : Makes S H g fun x p => H p ∧ Q x p := by
  intro a ha hH
  have hg := h a ha hH
  cases hrun : g.run a with
  | ok x b =>
    rw [hrun] at hg
    exact ⟨hg.1, hg.2.1, (hH.mono hg.2.1.keeps).and hg.2.2⟩
  | error e b => rwa [hrun] at hg

theorem mono {H' : Program → Prop} {Q' : α → Program → Prop} (h : Makes S H g Q)
    (hH : ∀ p, H' p → H p) (hQ : ∀ x p, H' p → Q x p → Q' x p) : Makes S H' g Q' := by
  intro a ha hH'
  have hg := (keep fun b hb hHb => h b hb (hHb.imp hH) : Makes S H' g _) a ha hH'
  cases hrun : g.run a with
  | ok x b =>
    rw [hrun] at hg
    exact ⟨hg.1, hg.2.1, hg.2.2.imp fun p hp => hQ x p hp.1 hp.2⟩
  | error e b => rwa [hrun] at hg

/-- The second part can rely on what the first made. -/
theorem bind (h : Makes S H g Q) (hk : ∀ x, Makes S (fun p => H p ∧ Q x p) (k x) R) :
    Makes S H (g >>= k) R := by
  intro a ha hH
  have hg := h.keep a ha hH
  rw [EStateM.run_bind]
  cases hrun : g.run a with
  | error e b => rwa [hrun] at hg
  | ok x b =>
    rw [hrun] at hg
    obtain ⟨hsound, hext, hQ⟩ := hg
    have hkx := hk x b hsound hQ
    dsimp only
    cases hrun' : (k x).run b with
    | error e c =>
      rw [hrun'] at hkx
      exact ⟨hkx.1, hext.trans hkx.2⟩
    | ok y c =>
      rw [hrun'] at hkx
      exact ⟨hkx.1, hext.trans hkx.2.1, hkx.2.2⟩

theorem tryCatch {handle : Error → Generate α} (h : Makes S H g Q)
    (hhandle : ∀ e, Makes S H (handle e) Q) : Makes S H (tryCatch g handle) Q := by
  intro a ha hH
  have hg := h a ha hH
  rw [run_tryCatch]
  cases hrun : g.run a with
  | ok x b => rwa [hrun] at hg
  | error e b =>
    rw [hrun] at hg
    have he := hhandle e b hg.1 (hH.mono hg.2.keeps)
    dsimp only
    cases hrun' : (handle e).run b with
    | error e' c =>
      rw [hrun'] at he
      exact ⟨he.1, hg.2.trans he.2⟩
    | ok x c =>
      rw [hrun'] at he
      exact ⟨he.1, hg.2.trans he.2.1, he.2.2⟩

/-- A generator goes on from a computation without effects only if that has a result. -/
theorem lift {x : Except Error α} (h : ∀ y, x = .ok y → Makes S H (k y) R) :
    Makes S H (Codec.lift x >>= k) R := by
  cases x with
  | ok y => exact h y rfl
  | error e => exact throw e

theorem under {step : String} (h : Makes S H g Q) : Makes S H (Codec.under step g) Q :=
  tryCatch h fun e => throw (e.prepend step)

theorem request {kind : String} {args : List MoveType} {gen : String → Generate FuncId}
    (h : ∀ name, Makes S H (gen name) (S.table kind args)) :
    Makes S H (request kind args gen) (S.table kind args) := by
  intro a ha hH
  rw [request_run]
  split
  · exact ⟨ha, .refl _⟩
  split
  · rename_i f hfind
    exact ⟨ha, .refl _, ha.cached kind args f (by simp [Cache.lookup?, hfind])⟩
  · exact ⟨ha, .refl _⟩
  rename_i hnone
  split_ifs
  · exact ⟨ha, .refl _⟩
  have hopening : Sound S (a.opening kind args) :=
    ha.recache fun kind' args' f hf => ha.cached kind' args' f (lookup?_opening hnone hf)
  have hgen := h (symbol kind args) _ hopening hH
  cases hrun : (gen (symbol kind args)).run (a.opening kind args) with
  | error e b =>
    rw [hrun] at hgen
    exact ⟨hgen.1.recache fun kind' args' f hf => hgen.1.cached kind' args' f (lookup?_dropping hf),
      hgen.2⟩
  | ok f b =>
    rw [hrun] at hgen
    obtain ⟨hsound, hext, hf⟩ := hgen
    dsimp only [settle]
    split_ifs
    · refine ⟨hsound.recache fun kind' args' g hg => ?_, hext, hf⟩
      rcases lookup?_answering hg with hg | ⟨rfl, rfl, rfl⟩
      · exact hsound.cached kind' args' g hg
      · exact hf
    · exact ⟨hsound.recache fun kind' args' g hg => hsound.cached kind' args' g (lookup?_dropping hg),
        hext⟩

theorem define_run (name : String) (params results : List ValType)
    (body : Generate (List ValType × Code)) (a : Assembly) :
    (define name params results body).run a =
      if (a.draft.definition? name).isSome then
        .error (.duplicate .codegen "" ("function " ++ Text.quote name ++ " already defined")) a
      else
        match body.run { a with draft :=
          { a.draft with funcs := a.draft.funcs ++ [.claimed name ⟨params, results⟩] } } with
        | .error e b => .error e b
        | .ok x b => .ok a.draft.nextId
            { b with draft := b.draft.modify a.draft.nextId (Entry.complete x.1 x.2) } := by
  unfold Assembly.define Assembly.claim Draft.claim
  simp only [EStateM.run_bind, EStateM.run_get]
  split_ifs
  · rfl
  · simp only [EStateM.run_bind, EStateM.run_modify, EStateM.run_pure, editDraft, Entry.claimed]
    cases body.run _ <;> rfl

/-- A definition gives a function with the code that its body makes, and its locals can be
numbered. -/
theorem define_each {name : String}
    {R : FuncId → Program → Prop}
    (h : Makes S H body fun x p => x.1.length < UInt32.size →
      S.each (.coded name ⟨params, results⟩ x.1 x.2) p ∧
        ∀ f : FuncId, p.funcs[f.toNat]? = some (.code ⟨params, results⟩ x.1 x.2) → R f p) :
    Makes S H (define name params results body) R := by
  intro a ha hH
  rw [define_run]
  split_ifs
  · exact ⟨ha, .refl _⟩
  set d := a.draft with hd
  set claimed : Draft := { d with funcs := d.funcs ++ [.claimed name ⟨params, results⟩] }
  have hclaimed : d.Extends claimed := d.extends_append _
  have hstart : Sound S { a with draft := claimed } := by
    refine ha.grow hclaimed.keeps fun i e hi he => .inl ?_
    rw [getElem?_append] at hi
    split_ifs at hi with hlt
    · exact hi
    · rw [getElem?_singleton] at hi
      split_ifs at hi
      cases hi
      cases he
  have hbody := h { a with draft := claimed } hstart (hH.mono hclaimed.keeps)
  cases hrun : body.run { a with draft := claimed } with
  | error e b =>
    rw [hrun] at hbody
    exact ⟨hbody.1, hclaimed.trans hbody.2⟩
  | ok x b =>
    obtain ⟨locals, code⟩ := x
    rw [hrun] at hbody
    obtain ⟨hsound, hext, hcode⟩ := hbody
    set done : Draft := b.draft.modify d.nextId (Entry.complete locals code)
    have hlength : done.funcs.length = b.draft.funcs.length := by simp [done, Draft.modify]
    have hclaim : done.funcs.length ≤ UInt32.size → d.nextId.toNat = d.funcs.length ∧
        ∃ rest, b.draft.funcs = d.funcs ++ .claimed name ⟨params, results⟩ :: rest ∧
          done.funcs = d.funcs ++ .coded name ⟨params, results⟩ locals code :: rest :=
      fun hle => Draft.funcs_modify_claimed hext (hlength ▸ hle)
    -- Only the function that was claimed here changes, and it had no body.
    have hother : done.funcs.length ≤ UInt32.size → ∀ i, i ≠ d.funcs.length →
        done.funcs[i]? = b.draft.funcs[i]? := by
      intro hle i hin
      obtain ⟨-, rest, hb, hdone⟩ := hclaim hle
      rw [hdone, hb]
      rcases Nat.lt_or_gt_of_ne hin with hlt | hgt
      · rw [getElem?_append_left hlt, getElem?_append_left hlt]
      · rw [getElem?_append_right hgt.le, getElem?_append_right hgt.le,
          getElem?_cons, getElem?_cons, if_neg (by omega), if_neg (by omega)]
    have hkeeps : b.draft.Keeps done := by
      refine ⟨hlength.ge, fun hle i e hi he => ?_⟩
      by_cases hin : i = d.funcs.length
      · obtain ⟨-, rest, hb, -⟩ := hclaim hle
        subst hin
        simp [hb] at hi
        subst hi
        cases he
      · rw [hother hle i hin, hi]
    have hentry : done.funcs.length ≤ UInt32.size → d.nextId.toNat = d.funcs.length ∧
        done.funcs[d.funcs.length]? = some (.coded name ⟨params, results⟩ locals code) := by
      intro hle
      obtain ⟨hid, rest, -, hdone⟩ := hclaim hle
      rw [hdone]
      exact ⟨hid, by simp⟩
    have hlocals : ∀ d' : Draft, done.Keeps d' → d'.Fits → locals.length < UInt32.size := by
      intro d' hd' hfits
      obtain ⟨-, hat⟩ := hentry (hd'.1.trans hfits.funcs_le)
      have hkept := hd'.2 hfits.funcs_le _ _ hat rfl
      exact hfits.locals_lt _ _ _ _ _ (mem_of_getElem? hkept)
    refine ⟨hsound.grow hkeeps fun i e hi he => ?_, ?_, ?_⟩
    · by_cases hle : done.funcs.length ≤ UInt32.size
      · by_cases hin : i = d.funcs.length
        · rw [hin, (hentry hle).2] at hi
          cases hi
          exact .inr fun d' types hd' hfits =>
            (hcode d' types (hkeeps.trans hd') hfits (hlocals d' hd' hfits)).1
        · exact .inl (hother hle i hin ▸ hi)
      · exact .inr fun d' types hd' hfits => absurd (hd'.1.trans hfits.funcs_le) hle
    · refine ⟨hlength ▸ hclaimed.length_le.trans hext.length_le, fun hle => ?_,
        hext.globals_eq, hext.memory_eq, hext.data_eq⟩
      obtain ⟨-, rest, -, hdone⟩ := hclaim hle
      rw [hdone]
      exact prefix_append _ _
    · intro d' types hd' hfits
      obtain ⟨hid, hat⟩ := hentry (hd'.1.trans hfits.funcs_le)
      rw [← hid] at hat
      have hcallee := always_callee hat rfl d' types hd' hfits
      rw [Entry.callee_coded] at hcallee
      exact (hcode d' types (hkeeps.trans hd') hfits (hlocals d' hd' hfits)).2 _ hcallee

section

variable {T : Table}

theorem define_fits {name : String}
    {R : FuncId → Program → Prop}
    (h : Makes T H body fun x p => ∀ f : FuncId,
      p.funcs[f.toNat]? = some (.code ⟨params, results⟩ x.1 x.2) →
        x.1.length < UInt32.size → R f p) :
    Makes T H (define name params results body) R :=
  define_each (h.mono (fun _ hp => hp) fun _ _ _ hx hlen => ⟨trivial, fun f hf => hx f hf hlen⟩)

theorem define {name : String} {params results : List ValType}
    {body : Generate (List ValType × Code)} {R : FuncId → Program → Prop}
    (h : Makes T H body fun x p => ∀ f : FuncId,
      p.funcs[f.toNat]? = some (.code ⟨params, results⟩ x.1 x.2) → R f p) :
    Makes T H (define name params results body) R :=
  define_fits (h.mono (fun _ hp => hp) fun _ _ _ hx f hf _ => hx f hf)

end

theorem import_each (c : Context) (f : HostFunc)
    (heach : ∀ home p, S.each (.imported home f.name ⟨List.replicate f.arity .i32, []⟩) p) :
    Makes S H (Prelude.importHost c f) fun id p => p.funcs[id.toNat]? = some (.host f) := by
  have hcallee : ∀ home t, (Entry.imported home f.name t).callee = .host f := by
    intro home t
    cases f <;> rfl
  intro a ha _
  have hrun : (Prelude.importHost c f).run a =
      .ok (a.draft.declareImport c.options.host f.name ⟨List.replicate f.arity .i32, []⟩).1
        { a with draft := (a.draft.declareImport c.options.host f.name
          ⟨List.replicate f.arity .i32, []⟩).2 } := rfl
  rw [hrun]
  dsimp only [Draft.declareImport]
  split
  · rename_i i hfound
    refine ⟨ha, .refl _, ?_⟩
    obtain ⟨hi, hsame, _⟩ := findIdx?_eq_some_iff_getElem.1 hfound
    intro d' types hd' hfits
    have hid : (UInt32.ofNat i).toNat = i :=
      UInt32.toNat_ofNat_of_lt (hi.trans_le (hd'.1.trans hfits.funcs_le))
    cases hentry : a.draft.funcs[i] with
    | defined => simp [hentry] at hsame
    | imported home name t =>
      simp only [hentry, Bool.and_eq_true, beq_iff_eq] at hsame
      have hget : a.draft.funcs[(UInt32.ofNat i).toNat]? = some (.imported home f.name t) := by
        rw [hid, getElem?_eq_getElem hi, hentry, hsame.2]
      have := always_callee hget rfl d' types hd' hfits
      rwa [hcallee] at this
  · have hext := a.draft.extends_append
      (.imported c.options.host f.name ⟨List.replicate f.arity .i32, []⟩)
    refine ⟨ha.grow hext.keeps fun i e hi he => ?_, hext, ?_⟩
    · rw [getElem?_append] at hi
      split_ifs at hi with hlt
      · exact .inl hi
      · rw [getElem?_singleton] at hi
        split_ifs at hi
        cases hi
        exact .inr fun d' types _ _ => heach _ _
    intro d' types hd' hfits
    have hlt : a.draft.funcs.length < UInt32.size := by
      have hle := hd'.1.trans hfits.funcs_le
      simp only [length_append, length_singleton] at hle
      omega
    have hid : a.draft.nextId.toNat = a.draft.funcs.length := UInt32.toNat_ofNat_of_lt hlt
    have hget : (a.draft.funcs ++ [Entry.imported c.options.host f.name
        ⟨List.replicate f.arity .i32, []⟩])[a.draft.nextId.toNat]? =
          some (.imported c.options.host f.name ⟨List.replicate f.arity .i32, []⟩) := by
      simp [hid]
    rw [← hcallee c.options.host ⟨List.replicate f.arity .i32, []⟩]
    exact always_callee hget rfl d' types hd' hfits

theorem importHost {T : Table} (c : Context) (f : HostFunc) :
    Makes T H (Prelude.importHost c f) fun id p => p.funcs[id.toNat]? = some (.host f) :=
  import_each c f fun _ _ => trivial

end Makes

end MoveCodec.Assembly
