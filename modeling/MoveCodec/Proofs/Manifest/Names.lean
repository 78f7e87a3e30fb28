import MoveCodec.Proofs.Manifest.Order

/-!
# What the names in type expressions stand for

A reserved name stands for a type of the language, also when the package declares it. Every other
name that is declared stands for its declaration, wherever it occurs in an expression, and only then
for a definition of the framework.
-/
namespace MoveCodec.Manifest

open Expression List

variable {fuel : Nat} {resolve : Resolver} {rest cs : List Char} {t : MoveType} {ts : List MoveType}
  {n : BareName}

/-- An identifier. -/
structure BareName where
  chars : List Char
  ne_nil : chars ≠ []
  valid : ∀ c ∈ chars, isNameChar c = true
  bare : ':' ∉ chars

namespace BareName

variable (n : BareName)

def text : String := String.ofList n.chars

/-- The name is read before names are looked up. -/
def reserved : Bool :=
  (keyword? n.text).isSome || (paramIndex? n.chars).isSome || n.text == "vector"

end BareName

inductive TypeExpr where
  | name (n : BareName) (args : List TypeExpr)
  | ref (mutable : Bool) (e : TypeExpr)

mutual

def TypeExpr.chars : TypeExpr → List Char
  | .name n args => n.chars ++ if args.isEmpty then [] else '<' :: listChars args
  | .ref m e => '&' :: ((if m then ['m', 'u', 't', ' '] else []) ++ e.chars)

/-- Arguments up to the closing bracket. -/
def listChars : List TypeExpr → List Char
  | [] => []
  | [e] => e.chars ++ ['>']
  | e :: e' :: es => e.chars ++ ',' :: listChars (e' :: es)

end

def TypeExpr.text (e : TypeExpr) : String := String.ofList e.chars

def Local.type (l : Local) (home : ModuleId) (args : List MoveType) : MoveType :=
  if l.isEnum then .enum ⟨home, l.index⟩ args else .struct ⟨home, l.index⟩ args

def Scope.standsFor? (s : Scope) (n : BareName) (ts : List MoveType) : Option MoveType :=
  match keyword? n.text, paramIndex? n.chars with
  | some t, _ => if ts = [] then some t else none
  | none, some i => if ts = [] then some (.param i) else none
  | none, none =>
    if n.text = "vector" then
      match ts with
      | [t] => some (.vector t)
      | _ => none
    else match s.locals.lookup n.text with
      | some l => if (ts.length : Int) = l.arity then some (l.type s.home ts) else none
      | none => (s.resolve n.text ts).toOption

mutual

inductive Scope.Means (s : Scope) : TypeExpr → MoveType → Prop
  | name {n : BareName} {args : List TypeExpr} {ts : List MoveType} {t : MoveType} :
      Scope.MeanAll s args ts → s.standsFor? n ts = some t → Scope.Means s (.name n args) t
  | ref {e : TypeExpr} {t : MoveType} (m : Bool) : Scope.Means s e t →
      Scope.Means s (.ref m e) (.ref m t)

inductive Scope.MeanAll (s : Scope) : List TypeExpr → List MoveType → Prop
  | nil : Scope.MeanAll s [] []
  | cons {e : TypeExpr} {es : List TypeExpr} {t : MoveType} {ts : List MoveType} :
      Scope.Means s e t → Scope.MeanAll s es ts → Scope.MeanAll s (e :: es) (t :: ts)

end

/-! ## Reading -/

/-- The text goes on behind a name. -/
def Ends (cs : List Char) : Prop := ∀ c ∈ cs.head?, c = '<' ∨ c = ',' ∨ c = '>'

section

variable {n : BareName} {cs : List Char}

theorem BareName.exists_cons (n : BareName) :
    ∃ c rest, n.chars = c :: rest ∧ isNameChar c = true := by
  obtain ⟨c, rest, h⟩ := exists_cons_of_ne_nil n.ne_nil
  exact ⟨c, rest, h, n.valid c (by simp [h])⟩

theorem skipBlanks_name : skipBlanks (n.chars ++ cs) = n.chars ++ cs := by
  obtain ⟨c, rest, h, hc⟩ := n.exists_cons
  have hblank : (c == ' ' || c == '\t') = false := by
    cases hb : (c == ' ' || c == '\t') with
    | false => rfl
    | true => rcases Bool.or_eq_true_iff.1 hb with hb | hb <;> cases eq_of_beq hb <;> cases hc
  rw [h, cons_append, skipBlanks, dropWhile_cons_of_neg (by simpa using hblank)]

theorem after_name : after? '&' (n.chars ++ cs) = none := by
  obtain ⟨c, rest, h, hc⟩ := n.exists_cons
  have hne : c ≠ '&' := by
    rintro rfl
    cases hc
  rw [after?, skipBlanks_name, h]
  exact if_neg hne

theorem span_name (h : Ends cs) : (n.chars ++ cs).takeWhile isNameChar = n.chars ∧
    (n.chars ++ cs).dropWhile isNameChar = cs := by
  rw [takeWhile_append_of_pos n.valid, dropWhile_append_of_pos n.valid]
  cases cs with
  | nil => simp
  | cons c cs =>
    have hc : isNameChar c = false := by
      rcases h c rfl with rfl | rfl | rfl <;> rfl
    simp [hc]

theorem readType_name {source : String} (fuel : Nat) (h : Ends cs) :
    readType source (some resolve) (fuel + 1) (n.chars ++ cs) =
      match keyword? n.text, paramIndex? n.chars with
      | some t, _ => .ok (t, cs)
      | none, some i => .ok (.param i, cs)
      | none, none =>
        match after? '<' cs with
        | some rest => readArguments source (some resolve) fuel rest >>= fun x =>
            meaning source resolve n.text x.1 x.2
        | none => meaning source resolve n.text [] (skipBlanks cs) := by
  rw [readType, after_name]
  simp only [skipBlanks_name, (span_name h).1, (span_name h).2, List.isEmpty_iff, n.ne_nil, if_false]
  rfl

end

/-- A type is read up to a comma or a closing bracket. -/
def Stops (cs : List Char) : Prop := ∀ c ∈ cs.head?, c = ',' ∨ c = '>'

section

variable {s : Scope} (source : String)

theorem qualified_name (n : BareName) : Scope.qualified? n.text = none := by
  have hparts : ∀ cs : List Char, ':' ∉ cs → Scope.splitColons cs = [cs] := by
    intro cs h
    fun_induction Scope.splitColons cs with
    | case1 => rfl
    | case2 => simp at h
    | case3 | case4 => simp_all
  rw [Scope.qualified?, BareName.text, String.toList_ofList, hparts n.chars n.bare]
  rfl

/-- A declared name is looked up in the package. -/
theorem resolve_declared {l : Local} (hlookup : s.locals.lookup n.text = some l)
    (harity : (ts.length : Int) = l.arity) : s.resolve n.text ts = .ok (l.type s.home ts) := by
  rw [Scope.resolve, qualified_name, hlookup]
  simp only [Option.isSome_some, if_true, Scope.ofPackage, hlookup, Scope.checkArity, harity]
  rfl

/-- A name that is read with its arguments is given the meaning it stands for. -/
theorem meaning_of_standsFor (h : s.standsFor? n ts = some t) (hkeyword : keyword? n.text = none)
    (hparam : paramIndex? n.chars = none) (rest : List Char) :
    meaning source s.resolve n.text ts rest = .ok (t, rest) := by
  unfold Scope.standsFor? at h
  unfold meaning
  simp only [hkeyword, hparam] at h
  by_cases hvector : n.text = "vector"
  · rw [if_pos hvector] at h ⊢
    split at h <;> cases h
    rfl
  · rw [if_neg hvector] at h ⊢
    cases hlookup : s.locals.lookup n.text with
    | some l =>
      obtain ⟨harity, rfl⟩ : (ts.length : Int) = l.arity ∧ l.type s.home ts = t := by
        simpa [hlookup] using h
      rw [resolve_declared hlookup harity]
      rfl
    | none =>
      cases hresolve : s.resolve n.text ts with
      | error e => simp [hlookup, hresolve, Except.toOption] at h
      | ok t' =>
        obtain rfl : t' = t := by simpa [hlookup, hresolve, Except.toOption] using h
        rfl

theorem skipBlanks_stops (h : Stops cs) : skipBlanks cs = cs := by
  cases cs with
  | nil => rfl
  | cons c cs => rcases h c rfl with rfl | rfl <;> rfl

theorem after_stops (h : Stops cs) : after? '<' cs = none := by
  rw [after?, skipBlanks_stops h]
  cases cs with
  | nil => rfl
  | cons c cs => rcases h c rfl with rfl | rfl <;> rfl

theorem ends_args (args : List TypeExpr) (h : Stops rest) :
    Ends ((if args.isEmpty then [] else '<' :: listChars args) ++ rest) := by
  cases args with
  | nil => exact fun c hc => .inr (h c hc)
  | cons e es =>
    rintro c ⟨⟩
    exact .inl rfl

namespace TypeExpr

theorem length_pos : ∀ e : TypeExpr, 0 < e.chars.length
  | .name n args => by
    have := length_pos_of_ne_nil n.ne_nil
    simp only [chars, length_append]
    omega
  | .ref m e => by simp [chars]

theorem skipBlanks_chars : ∀ (e : TypeExpr) (rest : List Char),
    skipBlanks (e.chars ++ rest) = e.chars ++ rest
  | .name n args, rest => by rw [chars, append_assoc, skipBlanks_name]
  | .ref m e, rest => rfl

/-- A reference is not taken for a mutable one. -/
theorem chars_ne_mut (h : Stops rest) : ∀ e : TypeExpr,
    e.chars ++ rest ≠ 'm' :: 'u' :: 't' :: ' ' :: cs
  | .name n args => by
    rw [chars, append_assoc]
    intro heq
    have hends := ends_args args h
    have hrest := (span_name (n := n) hends).2
    rw [heq] at hrest
    rw [← hrest] at hends
    rcases hends ' ' rfl with h | h | h <;> cases h
  | .ref m e => by
    rintro ⟨⟩

end TypeExpr

theorem readType_applied {args : List TypeExpr} (hn : s.standsFor? n ts = some t)
    (hargs : s.MeanAll args ts) (hread : args ≠ [] →
      readArguments source (some s.resolve) fuel (listChars args ++ rest) = .ok (ts, rest))
    (hrest : Stops rest) :
    readType source (some s.resolve) (fuel + 1) ((TypeExpr.name n args).chars ++ rest) =
      .ok (t, rest) := by
  rw [TypeExpr.chars, append_assoc, readType_name fuel (ends_args args hrest)]
  have hmeaning := meaning_of_standsFor source hn
  unfold Scope.standsFor? at hn
  cases hkeyword : keyword? n.text with
  | some t' =>
    obtain ⟨rfl, rfl⟩ : ts = [] ∧ t' = t := by simpa [hkeyword] using hn
    cases hargs
    rfl
  | none =>
    cases hparam : paramIndex? n.chars with
    | some i =>
      obtain ⟨rfl, rfl⟩ : ts = [] ∧ .param i = t := by simpa [hkeyword, hparam] using hn
      cases hargs
      rfl
    | none =>
      have hmeaning := hmeaning hkeyword hparam rest
      cases hargs with
      | nil =>
        simp only [isEmpty_nil, if_true, nil_append, after_stops hrest,
          skipBlanks_stops hrest]
        exact hmeaning
      | cons he hes =>
        have hread := hread (cons_ne_nil _ _)
        simp only [isEmpty_cons, Bool.false_eq_true, if_false, cons_append]
        rw [show ∀ cs, after? '<' ('<' :: cs) = some cs from fun _ => rfl]
        simp only [hread]
        exact hmeaning

theorem readType_ref {m : Bool} (e : TypeExpr)
    (hrest : Stops rest) :
    readType source (some resolve) (fuel + 1) ((TypeExpr.ref m e).chars ++ rest) =
      readType source (some resolve) fuel (e.chars ++ rest) >>=
        fun x => pure (MoveType.ref m x.1, x.2) := by
  rw [TypeExpr.chars, cons_append, readType,
    show ∀ cs, after? '&' ('&' :: cs) = some cs from fun _ => rfl]
  cases m with
  | true => rfl
  | false =>
    simp only [Bool.false_eq_true, if_false, nil_append, e.skipBlanks_chars]
    split
    · rename_i heq
      exact absurd heq (e.chars_ne_mut hrest)
    · rfl

mutual

theorem readType_of_means : ∀ (e : TypeExpr) {t : MoveType} {fuel : Nat} {rest : List Char},
    s.Means e t → 2 * e.chars.length ≤ fuel → Stops rest →
    readType source (some s.resolve) fuel (e.chars ++ rest) = .ok (t, rest)
  | e, t, 0, rest, h, hfuel, hrest => by
    have := e.length_pos
    omega
  | .name n args, t, fuel + 1, rest, .name hargs hn, hfuel, hrest => by
    refine readType_applied source hn hargs (fun hne => ?_) hrest
    refine readArguments_of_means args hargs hne ?_
    have := length_pos_of_ne_nil n.ne_nil
    rw [TypeExpr.chars, length_append, if_neg (by simpa using hne), length_cons] at hfuel
    omega
  | .ref m e, _, fuel + 1, rest, .ref _ he, hfuel, hrest => by
    rw [TypeExpr.chars, length_cons, length_append] at hfuel
    rw [readType_ref source e hrest, readType_of_means e he (by omega) hrest]
    rfl

theorem readArguments_of_means : ∀ (es : List TypeExpr) {ts : List MoveType} {fuel : Nat}
    {rest : List Char}, s.MeanAll es ts → es ≠ [] → 2 * (listChars es).length ≤ fuel →
    readArguments source (some s.resolve) fuel (listChars es ++ rest) = .ok (ts, rest)
  | [], _, _, _, _, hne, _ => absurd rfl hne
  | [e], _, 0, rest, .cons he .nil, _, hfuel => by
    simp [listChars] at hfuel
  | [e], _, fuel + 1, rest, .cons he .nil, _, hfuel => by
    rw [listChars, length_append, length_singleton] at hfuel
    have hstops : Stops ('>' :: rest) := by
      rintro c ⟨⟩
      exact .inr rfl
    rw [listChars, append_assoc, singleton_append, readArguments,
      readType_of_means e he (by omega) hstops]
    rfl
  | e :: e' :: es, _, 0, rest, .cons he hes, _, hfuel => by
    simp [listChars] at hfuel
  | e :: e' :: es, _, fuel + 1, rest, .cons he hes, _, hfuel => by
    rw [listChars, length_append, length_cons] at hfuel
    have hstops : Stops (',' :: (listChars (e' :: es) ++ rest)) := by
      rintro c ⟨⟩
      exact .inl rfl
    rw [listChars, append_assoc, cons_append, readArguments,
      readType_of_means e he (by omega) hstops]
    show (readArguments source (some s.resolve) fuel (listChars (e' :: es) ++ rest) >>=
      fun x => .ok (_ :: x.1, x.2)) = _
    rw [readArguments_of_means (e' :: es) hes (cons_ne_nil _ _) (by omega)]
    rfl

end

theorem parse_of_means {e : TypeExpr} (h : s.Means e t) :
    Expression.parse e.text (some s.resolve) = .ok t := by
  have hread := readType_of_means e.text e h (Nat.le_add_right (2 * e.chars.length) 2)
    (show Stops [] by rintro c ⟨⟩)
  rw [append_nil] at hread
  rw [Expression.parse, TypeExpr.text, String.toList_ofList, ← TypeExpr.text, hread]
  rfl

end

theorem BareName.standsFor_reserved (s : Scope) (hn : n.reserved = true)
    (h : s.standsFor? n ts = some t) (id : DefId) (us : List MoveType) :
    t ≠ .struct id us ∧ t ≠ .enum id us := by
  unfold Scope.standsFor? at h
  cases hkeyword : keyword? n.text with
  | some t' =>
    obtain ⟨-, rfl⟩ : ts = [] ∧ t' = t := by simpa [hkeyword] using h
    unfold keyword? at hkeyword
    split at hkeyword <;> cases hkeyword <;> exact ⟨nofun, nofun⟩
  | none =>
    cases hparam : paramIndex? n.chars with
    | some i =>
      obtain ⟨-, rfl⟩ : ts = [] ∧ .param i = t := by simpa [hkeyword, hparam] using h
      exact ⟨nofun, nofun⟩
    | none =>
      have hvector : n.text = "vector" := by simpa [reserved, hkeyword, hparam] using hn
      simp only [hkeyword, hparam, if_pos hvector] at h
      split at h <;> cases h
      exact ⟨nofun, nofun⟩

/-- In every manifest that is read, an expression is read as what it means. A declared name means its
declaration, with arguments of the number it asks for; unless the name is reserved, and then it means
no definition. -/
theorem declared_names_win {source : String} {m : Manifest} (hm : parse source = .ok m)
    (home : ModuleId) (registry : Registry) :
    (∀ e t, (m.scope home registry).Means e t →
      Expression.parse e.text (some (m.scope home registry).resolve) = .ok t) ∧
    ∀ (n : BareName) (isEnum : Bool) (arity : Int), (n.text, isEnum, arity) ∈ m.decls →
      ∀ ts, (ts.length : Int) = arity →
        if n.reserved then ∀ t, (m.scope home registry).standsFor? n ts = some t →
          ∀ id us, t ≠ .struct id us ∧ t ≠ .enum id us
        else (m.scope home registry).standsFor? n ts = some
          (if isEnum then .enum (m.idOf home n.text) ts else .struct (m.idOf home n.text) ts) := by
  refine ⟨fun e t => parse_of_means, fun n isEnum arity hmem ts harity => ?_⟩
  obtain ⟨i, hi⟩ := mem_iff_getElem?.1 hmem
  let l : Local := ⟨Framework.base.freeIndex home + UInt16.ofNat i, isEnum, arity⟩
  have hlookup : (m.locals (Framework.base.freeIndex home)).lookup n.text = some l :=
    (lookup_locals (distinct_of_check (check_of_parse hm))).2 ⟨i, hi, rfl⟩
  split
  · exact fun t => n.standsFor_reserved _ ‹_›
  · rename_i hn
    obtain ⟨⟨hkeyword, hparam⟩, hvector⟩ :
        (keyword? n.text = none ∧ paramIndex? n.chars = none) ∧ n.text ≠ "vector" := by
      simpa [BareName.reserved] using hn
    rw [idOf_of_lookup hlookup]
    simp [Scope.standsFor?, scope, hkeyword, hparam, hvector, hlookup, harity, l, Local.type]

/-- A package with a struct that has the name of a number type. -/
def shadowing : String :=
  "[package]\nname = \"shop\"\n[[struct]]\nname = \"Coin\"\n[[struct]]\nname = \"u8\"\n" ++
  "[[function]]\nname = \"f\"\nparams = [\"u8\"]\n"

def coinName : BareName :=
  ⟨['C', 'o', 'i', 'n'], by decide, all_eq_true.1 (by decide), by decide +kernel⟩

theorem declared_names_win_coin :
    ∃ m, parse shadowing = .ok m ∧ ∀ home registry,
      Expression.parse "&mut Coin" (some (m.scope home registry).resolve) =
        .ok (.ref true (.struct (m.idOf home "Coin") [])) := by
  have hread : (parse shadowing).toOption.map decls =
      some [("Coin", false, 0), ("u8", false, 0)] := by
    decide +kernel
  cases hm : parse shadowing with
  | error e =>
    rw [hm] at hread
    cases hread
  | ok m =>
    rw [hm] at hread
    have hdecls : m.decls = [("Coin", false, 0), ("u8", false, 0)] := Option.some.inj hread
    refine ⟨m, rfl, fun home registry => ?_⟩
    obtain ⟨hreads, hnames⟩ := declared_names_win hm home registry
    have hcoin := hnames coinName false 0 (by rw [hdecls]; exact .head _) [] rfl
    rw [if_neg (by decide +kernel)] at hcoin
    exact hreads (.ref true (.name coinName [])) _ (.ref true (.name .nil hcoin))

theorem not_declared_names_win_shadowing :
    (match parse shadowing with
    | .error _ => none
    | .ok m => match m.resolve with
      | .error _ => none
      | .ok p => some (m.decls, p.functions.map (·.params))) =
      some ([("Coin", false, 0), ("u8", false, 0)], [[.int .w8]]) := by
  decide +kernel

end MoveCodec.Manifest
