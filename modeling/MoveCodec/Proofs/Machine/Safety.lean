import MoveCodec.Machine.Instance
import MoveCodec.Proofs.Wasm.Typing

/-!
# Typed programs do not get stuck

A run of typed code keeps types: operands, locals and globals have the types that the rules give
them, jumps carry what their label takes, and the run halts only for reasons that typing cannot
rule out. `invoke_typed` says so for a call from outside.
-/
namespace MoveCodec.Machine

open Wasm List

variable {args stack : List Value} {f : UInt32} {fuel : Nat} {o : Op} {rest ts : List ValType}

/-! ## Values of types -/

def HaveTypes (vs : List Value) (ts : List ValType) : Prop := vs.map Value.type = ts

theorem HaveTypes.eq {vs : List Value} (h : HaveTypes vs ts) : vs.map Value.type = ts := h

section

variable {vs : List Value} {v : Value} {ts us : List ValType} {t : ValType}

theorem Value.type_eq_i32 : v.type = .i32 ↔ ∃ a, v = .i32 a := by
  cases v <;> simp [Value.type]

theorem Value.type_eq_i64 : v.type = .i64 ↔ ∃ a, v = .i64 a := by
  cases v <;> simp [Value.type]

theorem Value.type_zero (h : t.IsNumber) : (Value.zero t).type = t := by
  rcases h with rfl | rfl <;> rfl

theorem haveTypes_nil : HaveTypes vs [] ↔ vs = [] := by simp [HaveTypes]

theorem haveTypes_cons : HaveTypes vs (t :: ts) ↔
    ∃ v rest, vs = v :: rest ∧ v.type = t ∧ HaveTypes rest ts := by
  simp [HaveTypes, map_eq_cons_iff]

theorem haveTypes_i32 : HaveTypes vs (.i32 :: ts) ↔
    ∃ a rest, vs = .i32 a :: rest ∧ HaveTypes rest ts := by
  simp only [haveTypes_cons, Value.type_eq_i32]
  exact ⟨fun ⟨_, rest, hvs, ⟨a, ha⟩, h⟩ => ⟨a, rest, ha ▸ hvs, h⟩,
    fun ⟨a, rest, hvs, h⟩ => ⟨_, rest, hvs, ⟨a, rfl⟩, h⟩⟩

theorem haveTypes_i64 : HaveTypes vs (.i64 :: ts) ↔
    ∃ a rest, vs = .i64 a :: rest ∧ HaveTypes rest ts := by
  simp only [haveTypes_cons, Value.type_eq_i64]
  exact ⟨fun ⟨_, rest, hvs, ⟨a, ha⟩, h⟩ => ⟨a, rest, ha ▸ hvs, h⟩,
    fun ⟨a, rest, hvs, h⟩ => ⟨_, rest, hvs, ⟨a, rfl⟩, h⟩⟩

theorem HaveTypes.length_eq (h : HaveTypes vs ts) : vs.length = ts.length := by
  rw [← h.eq, length_map]

theorem HaveTypes.append {ws : List Value} (h : HaveTypes vs ts) (h' : HaveTypes ws us) :
    HaveTypes (vs ++ ws) (ts ++ us) := by
  rw [HaveTypes, map_append, h, h']

theorem HaveTypes.cons (h : HaveTypes vs ts) : HaveTypes (v :: vs) (v.type :: ts) := by
  rw [HaveTypes, map_cons, h]

theorem HaveTypes.reverse (h : HaveTypes vs ts) : HaveTypes vs.reverse ts.reverse := by
  rw [HaveTypes, map_reverse, h]

theorem HaveTypes.take (h : HaveTypes vs (ts ++ us)) : HaveTypes (vs.take ts.length) ts := by
  rw [HaveTypes, map_take, h]
  simp

theorem HaveTypes.drop (h : HaveTypes vs (ts ++ us)) : HaveTypes (vs.drop ts.length) us := by
  rw [HaveTypes, map_drop, h]
  simp

theorem HaveTypes.getElem? (h : HaveTypes vs ts) {i : Nat} (ht : ts[i]? = some t) :
    ∃ v, vs[i]? = some v ∧ v.type = t := by
  rw [← h, getElem?_map, Option.map_eq_some_iff] at ht
  exact ht

theorem HaveTypes.set (h : HaveTypes vs ts) {i : Nat} (ht : ts[i]? = some v.type) :
    HaveTypes (vs.set i v) ts := by
  rw [HaveTypes, map_set, h]
  obtain ⟨hi, hv⟩ := List.getElem?_eq_some_iff.1 ht
  rw [← hv, set_getElem_self]

end

/-! ## States and results -/

/-- The globals have their types. -/
def Store.Fits (E : Surroundings) (store : Store) : Prop :=
  HaveTypes store.globals.toList (E.globals.map Prod.fst)

structure State.Fits (C : Frame) (s : List ValType) (st : State) : Prop where
  stack : HaveTypes st.stack s
  locals : HaveTypes st.locals.toList C.locals
  store : st.store.Fits C.toSurroundings

/-- A reason to halt that typing does not rule out. -/
def Halt.Allowed (E : Surroundings) : Halt → Prop
  | .stuck => False
  | .trap .divideByZero => E.division = true
  | _ => True

/-- How typed code ends: with the stack `s'` if it goes on, and in a typed store in any case. -/
def Result.Agrees (C : Frame) (s' : List ValType) : Result → Prop
  | .next st => st.Fits C s'
  | .jump l st => ∃ ts rest, C.labels[l]? = some ts ∧ st.Fits C (ts.reverse ++ rest)
  | .ret st => ∃ rest, st.Fits C (C.results.reverse ++ rest)
  | .halt h store => h.Allowed C.toSurroundings ∧ store.Fits C.toSurroundings

section

variable {C : Frame} {s s' : List ValType} {st : State}

theorem State.Fits.goOn (h : st.Fits C s) {stack : List Value} (hstack : HaveTypes stack s') :
    (st.goOn stack).Agrees C s' :=
  ⟨hstack, h.locals, h.store⟩

theorem State.Fits.goOnWith (h : st.Fits C s) (memory : Memory) {stack : List Value}
    (hstack : HaveTypes stack s') : (st.goOnWith memory stack).Agrees C s' :=
  ⟨hstack, h.locals, h.store⟩

theorem State.Fits.trap (h : st.Fits C s) {t : Trap}
    (ht : t = .divideByZero → C.division = true) : (st.trap t).Agrees C s' :=
  ⟨by cases t <;> simp_all [Halt.Allowed], h.store⟩

theorem State.Fits.write (h : st.Fits C s) (a : Nat) (bs : Bytes) {stack : List Value}
    (hstack : HaveTypes stack s') : (st.write a bs stack).Agrees C s' := by
  unfold State.write
  dsimp only
  split
  · exact ⟨hstack, h.locals, h.store⟩
  · exact ⟨trivial, h.store⟩

theorem State.Fits.setLocal (h : st.Fits C s) {x : UInt32} {v : Value}
    (hx : C.locals[x.toNat]? = some v.type) (hstack : HaveTypes stack s') :
    State.Fits C s' { st with locals := st.locals.setIfInBounds x.toNat v, stack } :=
  ⟨hstack, by simpa using h.locals.set hx, h.store⟩

/-! ## Instructions -/

theorem LoadOp.type_value (op : LoadOp) (bs : Bytes) :
    (LoadOp.value op bs).type = op.type := by
  cases op <;> rfl

theorem StoreOp.exists_bytes (op : StoreOp) {v : Value} (h : v.type = op.type) :
    ∃ bs, StoreOp.bytes? op v = some bs := by
  cases op <;> cases v <;> simp_all [StoreOp.bytes?, Value.type, Wasm.StoreOp.type]

theorem I32Op.eval?_eq_none {o : I32Op} {a b : UInt32} (h : I32Op.eval? o a b = none) :
    o = .divU := by
  cases o <;> simp_all [I32Op.eval?]

theorem typed_of_memory {P : Prop} [Decidable P] {us : List ValType}
    (h : ∃ ts' us' rest, (if P then some (ts, us) else none) = some (ts', us') ∧
      s = ts' ++ rest ∧ s' = us' ++ rest) : ∃ rest, s = ts ++ rest ∧ s' = us ++ rest := by
  obtain ⟨_, _, rest, hsig, hs, hs'⟩ := h
  obtain ⟨-, ⟨⟩⟩ := Option.ite_none_right_eq_some.1 hsig
  exact ⟨rest, hs, hs'⟩

theorem step_agrees (ho : o.Typed C s s') (hcall : ∀ f, o ≠ .call f)
    (hst : st.Fits C s) : (step o st).Agrees C s' := by
  obtain ⟨⟨memory, globals, host⟩, locals, stack⟩ := st
  have hstack := hst.stack
  cases o with
  | unreachable => exact hst.trap nofun
  | br l =>
    obtain ⟨ts, hl, rest, rfl⟩ := ho
    exact ⟨ts, rest, hl, hst⟩
  | brTable ls d =>
    obtain ⟨ts, hl, rest, rfl⟩ := ho
    obtain ⟨v, stack, rfl, hv, hrest⟩ := haveTypes_cons.1 hstack
    obtain ⟨i, rfl⟩ := Value.type_eq_i32.1 hv
    refine ⟨ts, rest, hl _ ?_, hrest, hst.locals, hst.store⟩
    rw [getD_eq_getElem?_getD]
    cases hi : ls[i.toNat]? with
    | none => exact mem_cons_self
    | some l => exact mem_cons_of_mem _ (mem_of_getElem? hi)
  | ret =>
    obtain ⟨rest, rfl⟩ := ho
    exact ⟨rest, hst⟩
  | drop =>
    obtain ⟨t, rfl⟩ := ho
    obtain ⟨v, stack, rfl, -, hrest⟩ := haveTypes_cons.1 hstack
    exact hst.goOn hrest
  | select =>
    obtain ⟨t, rest, -, rfl, rfl⟩ := ho
    obtain ⟨c, stack, rfl, h⟩ := haveTypes_i32.1 hstack
    obtain ⟨b, stack, rfl, rfl, h'⟩ := haveTypes_cons.1 h
    obtain ⟨a, stack, rfl, ha, h''⟩ := haveTypes_cons.1 h'
    refine hst.goOn ?_
    split
    · exact h''.cons
    · exact ha ▸ h''.cons
  | nop =>
    obtain ⟨_, _, rest, ⟨⟩, rfl, rfl⟩ := ho
    exact hst
  | brIf l =>
    obtain ⟨_, _, rest, hsig, rfl, rfl⟩ := ho
    obtain ⟨ts, hl, ⟨⟩⟩ := Option.map_eq_some_iff.1 hsig
    obtain ⟨c, stack, rfl, h⟩ := haveTypes_i32.1 hstack
    dsimp only [step]
    split
    · exact hst.goOn h
    · exact ⟨ts, rest, hl, h, hst.locals, hst.store⟩
  | call f => exact absurd rfl (hcall f)
  | localGet x =>
    obtain ⟨_, _, rest, hsig, rfl, rfl⟩ := ho
    obtain ⟨t, hx, ⟨⟩⟩ := Option.map_eq_some_iff.1 hsig
    obtain ⟨v, hv, rfl⟩ := hst.locals.getElem? hx
    rw [Array.getElem?_toList] at hv
    dsimp only [step]
    rw [hv]
    exact hst.goOn hstack.cons
  | localSet x =>
    obtain ⟨_, _, rest, hsig, rfl, rfl⟩ := ho
    obtain ⟨t, hx, ⟨⟩⟩ := Option.map_eq_some_iff.1 hsig
    obtain ⟨v, stack, rfl, rfl, h⟩ := haveTypes_cons.1 hstack
    exact hst.setLocal hx h
  | localTee x =>
    obtain ⟨_, _, rest, hsig, rfl, rfl⟩ := ho
    obtain ⟨t, hx, ⟨⟩⟩ := Option.map_eq_some_iff.1 hsig
    obtain ⟨v, stack, rfl, rfl, h⟩ := haveTypes_cons.1 hstack
    exact hst.setLocal hx h.cons
  | globalGet x =>
    obtain ⟨_, _, rest, hsig, rfl, rfl⟩ := ho
    obtain ⟨g, hx, ⟨⟩⟩ := Option.map_eq_some_iff.1 hsig
    obtain ⟨v, hv, ht⟩ := HaveTypes.getElem? hst.store (i := x.toNat) (t := g.1) (by simp [hx])
    rw [Array.getElem?_toList] at hv
    dsimp only [step]
    rw [hv]
    exact hst.goOn (ht ▸ hstack.cons)
  | globalSet x =>
    obtain ⟨_, _, rest, hsig, rfl, rfl⟩ := ho
    obtain ⟨g, hx, ⟨⟩⟩ := Option.map_eq_some_iff.1 hsig
    obtain ⟨v, stack, rfl, hv, h⟩ := haveTypes_cons.1 hstack
    refine ⟨h, hst.locals, ?_⟩
    have hset := HaveTypes.set hst.store (v := v) (i := x.toNat)
      (by simp [(Option.filter_eq_some_iff.1 hx).1, hv])
    simpa [Store.Fits] using hset
  | load op align offset =>
    obtain ⟨rest, rfl, rfl⟩ := typed_of_memory ho
    obtain ⟨a, stack, rfl, h⟩ := haveTypes_i32.1 hstack
    dsimp only [step]
    split
    · exact hst.goOn (LoadOp.type_value op _ ▸ h.cons)
    · exact hst.trap nofun
  | store op align offset =>
    obtain ⟨rest, rfl, rfl⟩ := typed_of_memory ho
    obtain ⟨v, stack, rfl, hv, h⟩ := haveTypes_cons.1 hstack
    obtain ⟨a, stack, rfl, h'⟩ := haveTypes_i32.1 h
    obtain ⟨bs, hbs⟩ := StoreOp.exists_bytes op hv
    dsimp only [step]
    rw [hbs]
    exact hst.write _ bs h'
  | memorySize =>
    obtain ⟨rest, rfl, rfl⟩ := typed_of_memory ho
    exact hst.goOn hstack.cons
  | memoryGrow =>
    obtain ⟨rest, rfl, rfl⟩ := typed_of_memory ho
    obtain ⟨n, stack, rfl, h⟩ := haveTypes_i32.1 hstack
    dsimp only [step]
    split
    · exact hst.goOnWith _ h.cons
    · exact hst.goOn h.cons
  | memoryCopy | memoryFill =>
    obtain ⟨rest, rfl, rfl⟩ := typed_of_memory ho
    obtain ⟨n, stack, rfl, h⟩ := haveTypes_i32.1 hstack
    obtain ⟨src, stack, rfl, h'⟩ := haveTypes_i32.1 h
    obtain ⟨dst, stack, rfl, h''⟩ := haveTypes_i32.1 h'
    dsimp only [step]
    split
    · exact hst.write _ _ h''
    · exact hst.trap nofun
  | i32Const v | i64Const v =>
    obtain ⟨_, _, rest, ⟨⟩, rfl, rfl⟩ := ho
    exact hst.goOn hstack.cons
  | i32Eqz | extend =>
    obtain ⟨_, _, rest, ⟨⟩, rfl, rfl⟩ := ho
    obtain ⟨a, stack, rfl, h⟩ := haveTypes_i32.1 hstack
    exact hst.goOn h.cons
  | i32Rel r =>
    obtain ⟨_, _, rest, ⟨⟩, rfl, rfl⟩ := ho
    obtain ⟨b, stack, rfl, h⟩ := haveTypes_i32.1 hstack
    obtain ⟨a, stack, rfl, h'⟩ := haveTypes_i32.1 h
    exact hst.goOn h'.cons
  | i32Bin o =>
    obtain ⟨_, _, rest, hsig, rfl, rfl⟩ := ho
    simp only [Op.signature?, Option.ite_none_left_eq_some] at hsig
    obtain ⟨hdiv, ⟨⟩⟩ := hsig
    obtain ⟨b, stack, rfl, h⟩ := haveTypes_i32.1 hstack
    obtain ⟨a, stack, rfl, h'⟩ := haveTypes_i32.1 h
    dsimp only [step]
    split
    · exact hst.goOn h'.cons
    · rename_i hnone
      exact hst.trap fun _ => by simpa [I32Op.eval?_eq_none hnone] using hdiv
  | i64Eqz | wrap =>
    obtain ⟨_, _, rest, ⟨⟩, rfl, rfl⟩ := ho
    obtain ⟨a, stack, rfl, h⟩ := haveTypes_i64.1 hstack
    exact hst.goOn h.cons
  | i64Rel _ | i64Bin _ =>
    obtain ⟨_, _, rest, ⟨⟩, rfl, rfl⟩ := ho
    obtain ⟨b, stack, rfl, h⟩ := haveTypes_i64.1 hstack
    obtain ⟨a, stack, rfl, h'⟩ := haveTypes_i64.1 h
    exact hst.goOn h'.cons

end

/-! ## Programs -/

def Callee.type : Callee → FuncType
  | .host h => ⟨List.replicate h.arity .i32, []⟩
  | .code t _ _ => t

def Program.typeOf? (p : Program) (f : UInt32) : Option FuncType :=
  (p.funcs[f.toNat]?).map Callee.type

structure Program.Typed (p : Program) (E : Surroundings) : Prop where
  types_eq : p.types.toList = E.types
  typeOf_eq : ∀ f t, E.funcs f = some t → p.typeOf? f = some t
  bodies : ∀ (f : UInt32) t locals body, p.funcs[f.toNat]? = some (.code t locals body) →
    E.FuncTyped t locals body

section

variable {p : Program} {C : Frame} {E : Surroundings} {s s' : List ValType} {st : State}

theorem blockArity_eq (hp : p.Typed C.toSurroundings) {t : BlockType} {ft : FuncType}
    (ht : C.blockType? t = some ft) : blockArity p t = (ft.params.length, ft.results.length) := by
  unfold Frame.blockType? at ht
  unfold blockArity
  split_ifs at ht with hvoid hi32 hi64 hneg
  · cases ht
    rw [if_pos hvoid]
    rfl
  · cases ht
    subst hi32
    rfl
  · cases ht
    subst hi64
    rfl
  · rw [if_neg hvoid, if_neg hneg, ← Array.getElem?_toList, hp.types_eq, ht]

/-- A block starts with its operands alone. -/
theorem State.Fits.inside (h : st.Fits C (ts.reverse ++ rest)) (label : List ValType) :
    State.Fits (C.enter label) ts.reverse { st with stack := st.stack.take ts.length } := by
  have htake := h.stack.take
  rw [length_reverse] at htake
  exact ⟨htake, h.locals, h.store⟩

theorem State.Fits.below (h : st.Fits C (ts.reverse ++ rest)) :
    HaveTypes (st.stack.drop ts.length) rest := by
  have hdrop := h.stack.drop
  rwa [length_reverse] at hdrop

/-- What lies under the operands of a block joins what the block gives. -/
theorem State.Fits.leave {c : State} {rest rest' : List ValType} {below : List Value}
    (h : c.Fits C (ts.reverse ++ rest')) (hbelow : HaveTypes below rest) :
    (c.leave ts.length below).Fits C (ts.reverse ++ rest) := by
  have htake := h.stack.take
  rw [length_reverse] at htake
  exact ⟨htake.append hbelow, h.locals, h.store⟩

/-- Leaves a block that gives `n` values over the stack `below`. -/
def Result.leave (n : Nat) (below : List Value) : Result → Result
  | .next c | .jump 0 c => .next (c.leave n below)
  | .jump (l + 1) c => .jump l c
  | r => r

theorem runStep_block (n : Nat) (t : BlockType) (body : Code) (st : State) :
    runStep p (n + 1) (.block t body) st =
      (runWith (runStep p n) body { st with stack := st.stack.take (blockArity p t).1 }).leave
        (blockArity p t).2 (st.stack.drop (blockArity p t).1) := by
  rw [runStep]
  rfl

theorem runStep_branch (n : Nat) (t : BlockType) (yes no : Code) (store : Store)
    (locals : Array Value) (b : UInt32) (stack : List Value) :
    runStep p (n + 1) (.branch t yes no) ⟨store, locals, .i32 b :: stack⟩ =
      (runWith (runStep p n) (if b = 0 then no else yes)
        ⟨store, locals, stack.take (blockArity p t).1⟩).leave
          (blockArity p t).2 (stack.drop (blockArity p t).1) := by
  rw [runStep]
  rfl

theorem Result.Agrees.leave {r : Result} {rest : List ValType} {below : List Value}
    (h : r.Agrees (C.enter ts) ts.reverse) (hbelow : HaveTypes below rest) :
    (r.leave ts.length below).Agrees C (ts.reverse ++ rest) := by
  cases r with
  | next c =>
    have hc : c.Fits C (ts.reverse ++ []) := by
      rw [append_nil]
      exact ⟨h.stack, h.locals, h.store⟩
    exact hc.leave hbelow
  | jump l c =>
    obtain ⟨us, rest', hl, hc⟩ := h
    cases l with
    | zero =>
      cases hl
      exact State.Fits.leave (C := C) ⟨hc.stack, hc.locals, hc.store⟩ hbelow
    | succ l => exact ⟨us, rest', hl, hc.stack, hc.locals, hc.store⟩
  | ret c =>
    obtain ⟨rest', hc⟩ := h
    exact ⟨rest', hc.stack, hc.locals, hc.store⟩
  | halt e store => exact h

theorem runWith_agrees {one : Step → State → Result}
    (hone : ∀ c s s' st, Code.StepTyped C c s s' → st.Fits C s → (one c st).Agrees C s')
    {code : Code} (hcode : Code.Typed C code s s') (hst : st.Fits C s) :
    (runWith one code st).Agrees C s' := by
  induction code generalizing s st with
  | nil =>
    cases hcode
    exact hst
  | cons c rest ih =>
    obtain ⟨m, hc, hrest⟩ := hcode
    have h := hone c s m st hc hst
    rw [runWith]
    cases hr : one c st with
    | next st' =>
      rw [hr] at h
      exact ih hrest h
    | _ =>
      rw [hr] at h
      exact h

/-! ## Calls -/

/-- How a call ends: it goes on with the stack `s'`, or halts. -/
def Result.Settles (C : Frame) (s' : List ValType) : Result → Prop
  | .next st => st.Fits C s'
  | .halt h store => h.Allowed C.toSurroundings ∧ store.Fits C.toSurroundings
  | _ => False

theorem Result.Settles.agrees {r : Result} (h : r.Settles C s') : r.Agrees C s' := by
  cases r with
  | jump | ret => exact h.elim
  | _ => exact h

theorem popArgs_eq {params : List ValType}
    (h : HaveTypes stack (params.reverse ++ rest)) :
    ∃ args below, popArgs params.length stack = some (args, below) ∧ HaveTypes args params ∧
      HaveTypes below rest := by
  have hlen := h.length_eq
  have htake := h.take.reverse
  have hdrop := h.drop
  simp only [length_append, length_reverse, reverse_reverse] at hlen htake hdrop
  exact ⟨_, _, if_pos (by omega), htake, hdrop⟩

theorem hostArgs?_eq {n : Nat}
    (h : HaveTypes args (List.replicate n .i32)) : ∃ words, hostArgs? args = some words := by
  induction n generalizing args with
  | zero =>
    rw [replicate_zero, haveTypes_nil] at h
    exact ⟨[], by rw [h]; rfl⟩
  | succ n ih =>
    obtain ⟨a, rest, rfl, hrest⟩ := haveTypes_i32.1 h
    obtain ⟨words, hwords⟩ := ih hrest
    refine ⟨a :: words, ?_⟩
    rw [hostArgs?] at hwords ⊢
    rw [mapM_cons, hwords]
    rfl

theorem haveTypes_zeros {locals : List ValType} (h : ∀ l ∈ locals, l.IsNumber) :
    HaveTypes (locals.map Value.zero) locals := by
  rw [HaveTypes, map_map]
  exact (map_congr_left fun l hl => Value.type_zero (h l hl)).trans (map_id _)

theorem runStep_call {t : FuncType}
    (hp : p.Typed C.toSurroundings) (hf : C.funcs f = some t)
    (hst : st.Fits C (t.params.reverse ++ rest))
    (hbody : ∀ n, fuel = n + 1 → ∀ locals body, C.toSurroundings.FuncTyped t locals body →
      ∀ st, st.Fits (C.toSurroundings.frame t locals) [] →
        (runWith (runStep p n) body st).Agrees (C.toSurroundings.frame t locals)
          t.results.reverse) :
    (runStep p fuel (.op (.call f)) st).Settles C (t.results.reverse ++ rest) := by
  obtain ⟨callee, hcallee, rfl⟩ := Option.map_eq_some_iff.1 (hp.typeOf_eq f t hf)
  obtain ⟨args, below, hpop, hargs, hbelow⟩ := popArgs_eq hst.stack
  rw [runStep.eq_1, hcallee]
  cases callee with
  | host h =>
    obtain ⟨words, hwords⟩ := hostArgs?_eq hargs
    simp only [Callee.type, length_replicate] at hpop
    simp only [hpop, hwords]
    split
    · exact ⟨hbelow, hst.locals, hst.store⟩
    · exact ⟨trivial, hst.store⟩
  | code t locals body =>
    cases fuel with
    | zero => exact ⟨trivial, hst.store⟩
    | succ n =>
      have htyped := hp.bodies f t locals body hcallee
      obtain ⟨store, own, stack⟩ := st
      simp only [Callee.type] at hpop hargs hbody
      simp only [hpop]
      have hrun := hbody n rfl locals body htyped
        ⟨store, (args ++ locals.map Value.zero).toArray, []⟩
        ⟨rfl, hargs.append (haveTypes_zeros htyped.1), hst.store⟩
      -- The body ends with its results however it ends, and what it leaves below them is dropped.
      have hends : ∀ (c : State) (rest' : List ValType),
          c.Fits (C.toSurroundings.frame t locals) (t.results.reverse ++ rest') →
          State.Fits C (t.results.reverse ++ rest)
            ⟨c.store, own, c.stack.take t.results.length ++ below⟩ := fun c rest' hc =>
        ⟨(hc.leave hbelow).stack, hst.locals, hc.store⟩
      cases hr : runWith (runStep p n) body
          ⟨store, (args ++ locals.map Value.zero).toArray, []⟩ with
      | next c =>
        rw [hr] at hrun
        exact hends c [] ((append_nil _).symm ▸ hrun)
      | ret c =>
        rw [hr] at hrun
        obtain ⟨rest', hc⟩ := hrun
        exact hends c rest' hc
      | jump l c =>
        rw [hr] at hrun
        obtain ⟨ts, rest', hl, hc⟩ := hrun
        cases l with
        | zero =>
          cases hl
          exact hends c rest' hc
        | succ l => cases hl
      | halt e store =>
        rw [hr] at hrun
        exact hrun

/-! ## Runs -/

theorem runStep_op (hp : p.Typed C.toSurroundings) (ho : o.Typed C s s')
    (hst : st.Fits C s)
    (hbody : ∀ n, fuel = n + 1 → ∀ t locals body, C.toSurroundings.FuncTyped t locals body →
      ∀ st, st.Fits (C.toSurroundings.frame t locals) [] →
        (runWith (runStep p n) body st).Agrees (C.toSurroundings.frame t locals)
          t.results.reverse) :
    (runStep p fuel (.op o) st).Agrees C s' := by
  by_cases hcall : ∃ f, o = .call f
  · obtain ⟨f, rfl⟩ := hcall
    obtain ⟨_, _, rest, hsig, rfl, rfl⟩ := ho
    obtain ⟨t, hf, ⟨⟩⟩ := Option.map_eq_some_iff.1 hsig
    exact (runStep_call hp hf hst fun n hn => hbody n hn t).agrees
  · have hother : ∀ f, o ≠ .call f := fun f hf => hcall ⟨f, hf⟩
    rw [runStep.eq_2 _ _ _ _ hother]
    exact step_agrees ho hother hst

/-- Typed steps keep types in programs whose functions are typed. -/
theorem runStep_agrees (hp : p.Typed E) (fuel : Nat) :
    ∀ {C : Frame} {c : Step} {s s' : List ValType} {st : State}, C.toSurroundings = E →
      Code.StepTyped C c s s' → st.Fits C s → (runStep p fuel c st).Agrees C s' := by
  -- By induction on the fuel: bodies of blocks and of callees run with less.
  induction fuel with
  | zero =>
    rintro C c s s' st rfl hc hst
    cases c with
    | op o => exact runStep_op hp hc hst nofun
    | _ => exact ⟨trivial, hst.store⟩
  | succ n ih =>
    rintro C c s s' st rfl hc hst
    have hbody : ∀ {C' : Frame} {code : Code} {s s' : List ValType} {st : State},
        Code.Typed C' code s s' → st.Fits C' s → C'.toSurroundings = C.toSurroundings →
        (runWith (runStep p n) code st).Agrees C' s' := fun hcode hst hC =>
      runWith_agrees (fun c s s' st hc hst => ih hC hc hst) hcode hst
    cases c with
    | op o =>
      refine runStep_op hp hc hst fun m hm t locals body htyped st hst => ?_
      cases hm
      exact hbody htyped.2 hst rfl
    | block t body =>
      obtain ⟨ft, rest, ht, rfl, rfl, hin⟩ := hc
      rw [runStep_block, blockArity_eq hp ht]
      exact (hbody hin (hst.inside _) rfl).leave hst.below
    | branch t yes no =>
      obtain ⟨ft, rest, ht, rfl, rfl, hyes, hno⟩ := hc
      obtain ⟨store, locals, stack⟩ := st
      obtain ⟨b, stack, rfl, hstack⟩ := haveTypes_i32.1 hst.stack
      have hst' : State.Fits C (ft.params.reverse ++ rest) ⟨store, locals, stack⟩ :=
        ⟨hstack, hst.locals, hst.store⟩
      have hin : Code.Typed (C.enter ft.results) (if b = 0 then no else yes) ft.params.reverse
          ft.results.reverse := by
        split
        · exact hno
        · exact hyes
      rw [runStep_branch, blockArity_eq hp ht]
      exact (hbody hin (hst'.inside _) rfl).leave hst'.below
    | loop t body =>
      have hloop := hc
      obtain ⟨ft, rest, ht, rfl, rfl, hin⟩ := hc
      have hrun := hbody hin (hst.inside _) rfl
      simp only [runStep, blockArity_eq hp ht]
      cases hr : runWith (runStep p n) body
          { st with stack := st.stack.take ft.params.length } with
      | next c =>
        rw [hr] at hrun
        have hc : c.Fits C (ft.results.reverse ++ []) :=
          ⟨(append_nil _).symm ▸ hrun.stack, hrun.locals, hrun.store⟩
        exact hc.leave hst.below
      | ret c =>
        rw [hr] at hrun
        obtain ⟨rest', hc⟩ := hrun
        exact ⟨rest', hc.stack, hc.locals, hc.store⟩
      | halt e store =>
        rw [hr] at hrun
        exact hrun
      | jump l c =>
        rw [hr] at hrun
        obtain ⟨ts, rest', hl, hc⟩ := hrun
        cases l with
        | succ l => exact ⟨ts, rest', hl, hc.stack, hc.locals, hc.store⟩
        | zero =>
          -- The loop starts again with what its label takes.
          cases hl
          exact ih rfl hloop
            (State.Fits.leave (C := C) ⟨hc.stack, hc.locals, hc.store⟩ hst.below)

/-- A call from outside with arguments of the right types gives results of the right types or halts
for a reason that typing allows, and keeps the types of the globals. -/
theorem invoke_typed (hp : p.Typed E) {t : FuncType} (hf : E.funcs f = some t)
    (fuel : Nat) (hargs : HaveTypes args t.params) {store : Store}
    (hstore : store.Fits E) :
    (match (invoke p fuel f args store).outcome with
      | .ok vs => HaveTypes vs t.results
      | .error h => h.Allowed E) ∧ (invoke p fuel f args store).store.Fits E := by
  have hcall : (runStep p fuel (.op (.call f)) ⟨store, #[], args.reverse⟩).Settles
      { E with locals := [], labels := [], results := [] } (t.results.reverse ++ []) := by
    refine runStep_call hp hf ⟨?_, rfl, hstore⟩ ?_
    · rw [append_nil]
      exact hargs.reverse
    · rintro n rfl locals body hbody st hst
      exact runWith_agrees (fun c s s' st hc hst => runStep_agrees hp n rfl hc hst) hbody.2 hst
  rw [append_nil] at hcall
  rw [invoke, run, runWith]
  cases hr : runStep p fuel (.op (.call f)) ⟨store, #[], args.reverse⟩ with
  | next st =>
    rw [hr] at hcall
    have hresults := hcall.stack.reverse
    rw [reverse_reverse] at hresults
    exact ⟨hresults, hcall.store⟩
  | halt e store' =>
    rw [hr] at hcall
    exact hcall
  | jump | ret =>
    rw [hr] at hcall
    exact hcall.elim

end

end MoveCodec.Machine
