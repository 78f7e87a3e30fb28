import MoveCodec.Proofs.Storage.Deployment

/-!
# Histories of the heap

The memory of an instance is used by calls of the allocator, with any writes from outside in
between. Over every such history the blocks that were handed out lie end to end behind the reserved
words and inside the memory. A call changes no byte, and one that fails leaves the heap as it was:
all that comes before the new end of the heap is set can only add pages.
-/
namespace MoveCodec.Machine

open Wasm

/-! ## Code that only reads -/

def opReads : Op → Bool
  | .call _ | .globalSet _ | .store _ _ _ | .memoryCopy | .memoryFill | .memoryGrow => false
  | _ => true

/-- At most pages are added. -/
def opWidens : Op → Bool
  | .memoryGrow => true
  | o => opReads o

mutual

/-- All operations of a step are among some. -/
def stepUses (ok : Op → Bool) : Step → Bool
  | .op o => ok o
  | .block _ body | .loop _ body => codeUses ok body
  | .branch _ yes no => codeUses ok yes && codeUses ok no

def codeUses (ok : Op → Bool) : List Step → Bool
  | [] => true
  | c :: rest => stepUses ok c && codeUses ok rest

end

/-- The store a run leaves behind. -/
def Result.store : Result → Store
  | .next st | .jump _ st | .ret st => st.store
  | .halt _ store => store

theorem step_store {o : Op} (ho : opReads o = true) (st : State) : (step o st).store = st.store := by
  obtain ⟨store, locals, stack⟩ := st
  cases o
  all_goals first
    | exact absurd ho Bool.false_ne_true
    | rfl
    | (rcases stack with _ | ⟨_ | _, _ | ⟨_ | _, _ | ⟨_, stack⟩⟩⟩ <;>
        first | rfl | (dsimp only [step]; split <;> rfl))

/-- What the operations do to a store, for all of some operations. -/
structure Frames (ok : Op → Bool) (R : Store → Store → Prop) : Prop where
  refl : ∀ store, R store store
  trans : ∀ {a b c}, R a b → R b c → R a c
  calls : ∀ f, ok (.call f) = false
  step : ∀ {o}, ok o = true → ∀ st, R st.store (step o st).store

section

variable {p : Program} {vm : Vm} {ok : Op → Bool} {R : Store → Store → Prop}

theorem Result.store_leave (n : Nat) (below : List Value) (r : Result) :
    (r.leave n below).store = r.store := by
  cases r with
  | jump l st => cases l <;> rfl
  | _ => rfl

theorem Frames.runWith (h : Frames ok R) {one : Step → State → Result}
    (hone : ∀ c st, stepUses ok c = true → R st.store (one c st).store) (code : Code) (st : State)
    (hcode : codeUses ok code = true) : R st.store (runWith one code st).store := by
  induction code generalizing st with
  | nil => exact h.refl _
  | cons c rest ih =>
    rw [codeUses, Bool.and_eq_true] at hcode
    have hc := hone c st hcode.1
    rw [Machine.runWith]
    cases hr : one c st with
    | next st' =>
      rw [hr] at hc
      exact h.trans hc (ih st' hcode.2)
    | _ =>
      rw [hr] at hc
      exact hc

theorem Frames.runStep (h : Frames ok R) (fuel : Nat) (c : Step) (st : State)
    (hc : stepUses ok c = true) : R st.store (runStep p fuel c st).store := by
  have hop {fuel : Nat} {o : Op} (ho : stepUses ok (.op o) = true) (st : State) :
      R st.store (Machine.runStep p fuel (.op o) st).store := by
    rw [runStep.eq_2 _ _ _ _ (by rintro f rfl; cases (h.calls f).symm.trans ho)]
    exact h.step ho st
  induction fuel generalizing c st with
  | zero =>
    cases c with
    | op o => exact hop hc st
    | _ => exact h.refl _
  | succ fuel ih =>
    have hbody (stack : List Value) (body : Code) (hb : codeUses ok body = true) :
        R st.store (Machine.runWith (Machine.runStep p fuel) body { st with stack }).store :=
      h.runWith ih body { st with stack } hb
    cases c with
    | op o => exact hop hc st
    | block t body =>
      rw [runStep_block, Result.store_leave]
      exact hbody _ body hc
    | loop t body =>
      have hb := hbody (st.stack.take (blockArity p t).1) body hc
      rw [Machine.runStep]
      dsimp only
      generalize Machine.runWith _ body _ = r at hb ⊢
      rcases r with c | ⟨_ | l, c⟩ | c | e
      case jump.zero => exact h.trans hb (ih (.loop t body) (c.leave _ _) hc)
      all_goals exact hb
    | branch t yes no =>
      obtain ⟨store, locals, stack⟩ := st
      rw [stepUses, Bool.and_eq_true] at hc
      rcases stack with _ | ⟨b | _, stack⟩
      · exact h.refl _
      · rw [runStep_branch, Result.store_leave]
        refine hbody _ _ ?_
        split
        · exact hc.2
        · exact hc.1
      · exact h.refl _

theorem frames_reading : Frames opReads Eq where
  refl _ := rfl
  trans := .trans
  calls _ := rfl
  step ho st := (step_store ho st).symm

/-- From a sane state, pages are added at most. -/
def Widens (store store' : Store) : Prop :=
  ∀ vm : Vm, vm.Sane → store = vm.store → ∃ vm' : Vm, store' = vm'.store ∧
    vm.Turns 0 vm.memory.byte vm'

theorem frames_widening : Frames opWidens Widens where
  refl _ vm hs h := ⟨vm, h, hs.turns⟩
  trans := by
    intro a b c hab hbc vm hs h
    obtain ⟨vm₁, h₁, ht₁⟩ := hab vm hs h
    obtain ⟨vm₂, h₂, ht₂⟩ := hbc vm₁ ht₁.sane h₁
    exact ⟨vm₂, h₂, ht₂.top_eq.trans ht₁.top_eq, ht₂.byte_eq.trans ht₁.byte_eq,
      ht₁.size_le.trans ht₂.size_le, ht₂.limit_eq.trans ht₁.limit_eq, ht₂.reader_eq.trans ht₁.reader_eq,
      ht₂.stop_eq.trans ht₁.stop_eq, ht₂.host_eq.trans ht₁.host_eq, ht₂.sane⟩
  calls _ := rfl
  step := by
    intro o ho st vm hs hst
    by_cases hgrow : o = .memoryGrow
    · obtain ⟨store, locals, stack⟩ := st
      obtain rfl : store = vm.store := hst
      subst hgrow
      rcases stack with _ | ⟨n | _, stack⟩
      · exact ⟨vm, rfl, hs.turns⟩
      · dsimp only [step]
        split
        · rename_i m hm
          exact ⟨{ vm with memory := m }, rfl, (Vm.turns_grow hs hm).1⟩
        · exact ⟨vm, rfl, hs.turns⟩
      · exact ⟨vm, rfl, hs.turns⟩
    · have ho : opReads o = true := by cases o <;> first | exact absurd rfl hgrow | exact ho
      exact ⟨vm, (step_store ho st).trans hst, hs.turns⟩

/-- A call leaves the store that the body of the function does. -/
theorem store_invoke {f : UInt32} {type : FuncType} {locals : List ValType} {body : Code}
    (hp : p.funcs[f.toNat]? = some (.code type locals body)) (args : List Value)
    (hargs : type.params.length = args.length) (fuel : Nat) (vm : Vm) :
    (invoke p (fuel + 1) f args vm.store).store =
        (run p fuel body (vm.frame (args ++ locals.map Value.zero) [])).store ∧
      ∀ st, run p fuel body (vm.frame (args ++ locals.map Value.zero) []) = .next st →
        (invoke p (fuel + 1) f args vm.store).outcome.isOk := by
  have hs : (⟨vm.store, #[], args.reverse⟩ : State) = vm.frame [] args.reverse := rfl
  have hcall := runStep_code hp hargs fuel vm [] []
  rw [List.append_nil] at hcall
  rw [invoke, hs, run_cons, show Step.op (.call f) = Emit.call f from rfl, hcall]
  generalize run p fuel body _ = r
  refine ⟨?_, fun st hr => by subst hr; rfl⟩
  rcases r with _ | ⟨_ | _, _⟩ | _ | _ <;> rfl

/-- The code of the allocator sets the end of the heap last, and after that it cannot fail. -/
theorem run_allocateBody (fuel : Nat) (ls : List Value) :
    (∃ st, run p fuel Prelude.allocateBody (vm.frame ls []) = .next st) ∨
      Widens vm.store (run p fuel Prelude.allocateBody (vm.frame ls [])).store := by
  have hbody : Prelude.allocateBody = Prelude.allocateBody.take 15 ++
      [Emit.push 2, Emit.popGlobal Prelude.heapTop, Emit.push 1] := rfl
  have hcode : codeUses opWidens (Prelude.allocateBody.take 15) = true := rfl
  generalize Prelude.allocateBody.take 15 = code at hbody hcode
  have hwidens : Widens vm.store (run p fuel code (vm.frame ls [])).store :=
    frames_widening.runWith (frames_widening.runStep fuel) code (vm.frame ls []) hcode
  rw [hbody, run_append]
  cases hrun : run p fuel code (vm.frame ls []) with
  | next st =>
    rw [hrun] at hwidens
    dsimp only
    obtain ⟨store, locals, stack⟩ := st
    cases hlocal : locals[2]? with
    | none =>
      rw [run_push_none hlocal]
      exact .inr hwidens
    | some v =>
      obtain ⟨hlt, -⟩ := Array.getElem?_eq_some_iff.1 hlocal
      rw [run_push hlocal, run_next (by simp) rfl,
        run_push (Array.getElem?_eq_getElem (by simp; omega))]
      exact .inl ⟨_, rfl⟩
  | _ =>
    rw [hrun] at hwidens
    exact .inr hwidens

/-- A call of the allocator gives a block, or it fails and has at most added pages. -/
theorem invoke_allocate (hp : p.funcs[Prelude.allocate.toNat]? =
      some (.code ⟨[.i32], [.i32]⟩ Prelude.allocateLocals Prelude.allocateBody))
    (fuel : Nat) (size : UInt32) (hs : vm.Sane) :
    (∃ vm', invoke p fuel Prelude.allocate [.i32 size] vm.store = ⟨.ok [.i32 vm.top], vm'.store⟩ ∧
      vm.Becomes size.toNat vm.memory.byte vm') ∨
    (∃ e vm', invoke p fuel Prelude.allocate [.i32 size] vm.store = ⟨.error e, vm'.store⟩ ∧
      vm.Turns 0 vm.memory.byte vm') := by
  have hcomputes : Computes p Prelude.allocate [.i32 size] (Compute.allocate size)
      fun a => [.i32 a] := ⟨_, _, _, hp, rfl, fun vm => sim_allocateBody size vm⟩
  obtain ⟨n, hn⟩ := hcomputes.invoke vm
  cases hout : (invoke p fuel Prelude.allocate [.i32 size] vm.store).outcome with
  | ok vs =>
    obtain ⟨hok, herror⟩ := hn (max n fuel) (le_max_left ..)
    rw [invoke_of_le hout (le_max_right ..)] at hok herror
    cases hrun : (Compute.allocate size).run vm with
    | ok r =>
      obtain ⟨a, vm'⟩ := r
      obtain ⟨rfl, hb⟩ := allocate_becomes hs hrun
      exact .inl ⟨_, hok _ _ hrun, hb⟩
    | error e =>
      rw [herror _ hrun] at hout
      cases hout
  | error e =>
    suffices hwidens : Widens vm.store (invoke p fuel Prelude.allocate [.i32 size] vm.store).store by
      obtain ⟨vm', hstore, hturns⟩ := hwidens vm hs rfl
      exact .inr ⟨e, vm', by rw [← hout, ← hstore], hturns⟩
    cases fuel with
    | zero =>
      rw [invoke, run_cons, runStep.eq_1]
      simp only [hp]
      exact frames_widening.refl _
    | succ fuel =>
      obtain ⟨hstore, hnext⟩ := store_invoke hp [.i32 size] rfl fuel vm
      rw [hstore]
      refine (run_allocateBody fuel _).resolve_left ?_
      rintro ⟨st, hrun⟩
      have hok := hnext st hrun
      rw [hout] at hok
      cases hok

end

end MoveCodec.Machine

namespace MoveCodec.Storage

open Wasm Assembly Machine Prelude

/-! ## Histories -/

/-- What is done with the memory of an instance. -/
inductive HeapUse where
  | allocate (size : UInt32)
  | write (ptr : UInt32) (bytes : Bytes)

/-- A call of the allocator: what it found, what it was asked for and what it gave. -/
structure Allocation where
  before : Store
  size : UInt32
  result : Return

def Allocation.block? (k : Allocation) : Option Block :=
  match k.result.outcome with
  | .ok [.i32 ptr] => some ⟨ptr.toNat, k.size.toNat⟩
  | _ => none

/-- The call hands out the next bytes of the heap, or fails and leaves the end of the heap where it
is. Memory does not shrink, and all bytes are as they were. -/
def Allocation.Safe (k : Allocation) : Prop :=
  k.before.memory.size ≤ k.result.store.memory.size ∧
  k.result.store.memory.byte = k.before.memory.byte ∧
  match k.result.outcome with
  | .ok vs => ∃ ptr : UInt32, vs = [.i32 ptr] ∧
      k.before.globals[heapTop.toNat]? = some (.i32 ptr) ∧
      k.result.store.globals[heapTop.toNat]? = some (.i32 (ptr + k.size)) ∧
      heapStart ≤ ptr ∧ ptr.toNat + k.size.toNat ≤ 2 ^ 32 - 1 ∧
      ptr.toNat + k.size.toNat ≤ k.result.store.memory.size
  | .error _ => k.result.store.globals = k.before.globals

theorem Allocation.safe_ok {vm vm' : Vm} {size : UInt32} (hs : vm.Sane)
    (hb : vm.Becomes size.toNat vm.memory.byte vm') :
    (⟨vm.store, size, ⟨.ok [.i32 vm.top], vm'.store⟩⟩ : Allocation).Safe := by
  have htop := hb.top_eq
  have hlt := vm'.top.toNat_lt
  have hnext : vm'.top = vm.top + size :=
    UInt32.toNat_inj.1 (by rw [toNat_add_of_lt (by omega), htop])
  refine ⟨hb.size_le, hb.byte_eq, vm.top, rfl, rfl, ?_, hs.start_le, ?_, ?_⟩
  · exact congrArg (some ∘ Value.i32) hnext
  · simp only
    omega
  · exact htop ▸ hb.sane.top_le

theorem Allocation.safe_error {vm vm' : Vm} {size : UInt32} {e : Halt}
    (h : vm.Turns 0 vm.memory.byte vm') :
    (⟨vm.store, size, ⟨.error e, vm'.store⟩⟩ : Allocation).Safe := by
  have htop : vm'.top = vm.top := UInt32.toNat_inj.1 h.top_eq
  refine ⟨h.size_le, h.byte_eq, ?_⟩
  simp [Vm.store, htop, h.reader_eq, h.stop_eq]

/-- Blocks that lie end to end, the first one at `a`. -/
def EndToEnd : (a : Nat) → List Block → Prop
  | _, [] => True
  | a, b :: bs => b.start = a ∧ EndToEnd b.stop bs

/-- A write from outside; one that does not fit is refused. -/
def written (store : Store) (ptr : UInt32) (bytes : Bytes) : Store :=
  { store with memory := (store.memory.write? ptr.toNat bytes).getD store.memory }

/-- Of two blocks that lie end to end with others, the first ends before the second. -/
theorem EndToEnd.pairwise {a : Nat} {bs : List Block} (h : EndToEnd a bs) :
    bs.Pairwise fun b c => b.stop ≤ c.start := by
  have hle : ∀ {a : Nat} {bs : List Block}, EndToEnd a bs → ∀ b ∈ bs, a ≤ b.start := by
    intro a bs h
    induction bs generalizing a with
    | nil => simp
    | cons c bs ih =>
      obtain ⟨rfl, hrest⟩ := h
      exact List.forall_mem_cons.2
        ⟨le_rfl, fun b hb => (Nat.le_add_right _ _).trans (ih hrest b hb)⟩
  induction bs generalizing a with
  | nil => exact .nil
  | cons b bs ih => exact .cons (hle h.2) (ih h.2)

theorem exists_written {vm : Vm} (hs : vm.Sane) (ptr : UInt32) (bytes : Bytes) :
    ∃ vm' : Vm, written vm.store ptr bytes = vm'.store ∧ vm'.top = vm.top ∧ vm'.Sane := by
  by_cases hfit : ptr.toNat + bytes.length ≤ vm.memory.size
  · exact ⟨{ vm with memory := vm.memory.splice ptr.toNat bytes },
      by simp [written, Memory.write?, Vm.store, hfit], rfl, (write_becomes hs (run_write hfit)).2.sane⟩
  · exact ⟨vm, by simp [written, Memory.write?, Vm.store, hfit], rfl, hs⟩

namespace Deployment

variable {c : Context} (d : Deployment c)

def allocations (fuel : Nat) : Store → List HeapUse → List Allocation
  | _, [] => []
  | store, .allocate size :: rest =>
    ⟨store, size, d.call fuel allocate [.i32 size] store⟩ ::
      allocations fuel (d.call fuel allocate [.i32 size] store).store rest
  | store, .write ptr bytes :: rest => allocations fuel (written store ptr bytes) rest

theorem allocator (hc : c.registry.Made) : d.program.funcs[Prelude.allocate.toNat]? =
    some (.code ⟨[.i32], [.i32]⟩ allocateLocals allocateBody) := by
  have hentry : (start d.name c.options).draft.funcs[Prelude.allocate.toNat]? =
      some (.coded "allocate" ⟨[.i32], [.i32]⟩ allocateLocals allocateBody) := rfl
  have hext := (d.grown.sound hc (sound_start c d.name) (Codec.always_hasAllocator d.name _)).2
  rw [program, always_callee hentry rfl d.assembly.draft _ hext.keeps d.fits, Entry.callee_coded]

variable {d}

theorem allocations_of_sane (hc : c.registry.Made) (fuel : Nat) (uses : List HeapUse) {vm : Vm}
    (hs : vm.Sane) :
    (∀ k ∈ d.allocations fuel vm.store uses, k.Safe) ∧
      EndToEnd vm.top.toNat ((d.allocations fuel vm.store uses).filterMap Allocation.block?) := by
  induction uses generalizing vm with
  | nil => exact ⟨by simp [allocations], trivial⟩
  | cons use uses ih =>
    cases use with
    | write ptr bytes =>
      obtain ⟨vm', hstore, htop, hs'⟩ := exists_written hs ptr bytes
      rw [allocations, hstore, ← htop]
      exact ih hs'
    | allocate size =>
      rw [allocations, call_eq_invoke, List.forall_mem_cons, List.filterMap_cons]
      rcases invoke_allocate (d.allocator hc) fuel size hs with
        ⟨vm', hcall, hb⟩ | ⟨e, vm', hcall, hturns⟩
      · rw [hcall]
        obtain ⟨hsafe, hblocks⟩ := ih hb.sane
        refine ⟨⟨Allocation.safe_ok hs hb, hsafe⟩, rfl, ?_⟩
        rw [hb.top_eq] at hblocks
        exact hblocks
      · rw [hcall]
        obtain ⟨hsafe, hblocks⟩ := ih hturns.sane
        refine ⟨⟨Allocation.safe_error hturns, hsafe⟩, ?_⟩
        rw [hturns.top_eq] at hblocks
        exact hblocks

/-- Whatever is done with the memory of an instance, the allocator hands out blocks that lie end to
end behind the reserved words, and each call of it is safe. -/
theorem allocations_safe (hc : c.registry.Made) (d : Deployment c) (fuel : Nat)
    (uses : List HeapUse) :
    (∀ k ∈ d.allocations fuel d.inst.store uses, k.Safe) ∧
    ∃ a : UInt32, d.inst.store.globals[heapTop.toNat]? = some (.i32 a) ∧ heapStart ≤ a ∧
      EndToEnd a.toNat ((d.allocations fuel d.inst.store uses).filterMap Allocation.block?) ∧
      ((d.allocations fuel d.inst.store uses).filterMap Allocation.block?).Pairwise
        fun b c => b.stop ≤ c.start := by
  obtain ⟨vm, hstore, hequipped⟩ := d.exists_equipped hc
  obtain ⟨hsafe, hblocks⟩ := allocations_of_sane (d := d) hc fuel uses hequipped.sane
  rw [← hstore]
  exact ⟨hsafe, vm.top, rfl, hequipped.sane.start_le, hblocks, hblocks.pairwise⟩

theorem allocate_outcome (hc : c.registry.Made) {vm : Vm} (hs : vm.Sane) (size : UInt32) :
    (¬ vm.Refuses size ∧ ∃ vm', d.Returns allocate [.i32 size] vm [.i32 vm.top] vm' ∧
      vm.Becomes size.toNat vm.memory.byte vm' ∧ vm'.memory.pages.size =
        vm.memory.pages.size + vm.missing (vm.top.toNat + size.toNat)) ∨
    vm.Refuses size ∧ d.Traps allocate [.i32 size] vm := by
  have hcomputes : Computes d.program allocate [.i32 size] (Compute.allocate size)
      fun a => [.i32 a] := ⟨_, _, _, d.allocator hc, rfl, fun vm => sim_allocateBody size vm⟩
  rcases allocate_ends hs size with ⟨hok, vm', hrun, hpages⟩ | ⟨hrefuses, hrun⟩
  · exact .inl ⟨hok, vm', returns_of_computes hcomputes hrun, (allocate_becomes hs hrun).2, hpages⟩
  · exact .inr ⟨hrefuses, traps_of_computes hcomputes hrun⟩

/-- An allocation traps if the heap would end at no address or in more pages than there may be, and
else adds the pages that are missing. But a memory of 4 GiB passes for an empty one: there it traps,
unless the number of pages that seem to be missing wraps to zero. -/
theorem allocate_traps_iff (hc : c.registry.Made) (d : Deployment c) {vm : Vm} (hs : vm.Sane)
    (size : UInt32) :
    (d.Traps allocate [.i32 size] vm ↔ 2 ^ 32 ≤ vm.top.toNat + size.toNat ∨
      if vm.memory.pages.size = maxPages then vm.top.toNat + size.toNat + 65535 < 2 ^ 32
      else vm.memory.limit < pagesFor (vm.top.toNat + size.toNat)) ∧
    (¬ d.Traps allocate [.i32 size] vm → ∃ vm', d.Returns allocate [.i32 size] vm [.i32 vm.top] vm' ∧
      vm.Becomes size.toNat vm.memory.byte vm' ∧ vm'.memory.pages.size =
        max vm.memory.pages.size (pagesFor (vm.top.toNat + size.toNat))) := by
  rw [← Vm.refuses_iff hs]
  rcases allocate_outcome (d := d) hc hs size with ⟨hok, vm', hr, hb, hadded⟩ | ⟨hrefuses, htraps⟩
  · have hnot : ¬ d.Traps allocate [.i32 size] vm := fun h => h.not_returns hr
    exact ⟨iff_of_false hnot hok, fun _ => ⟨vm', hr, hb, hadded.trans (hs.pages_of_not_refuses hok)⟩⟩
  · exact ⟨iff_of_true htraps hrefuses, fun h => absurd htraps h⟩

end Deployment

/-- A history of a new instance: two blocks, with a write to the reserved words and a request that is
too large between them. -/
def sampleUses : List HeapUse :=
  [.allocate 10, .write 0 [1, 2, 3], .allocate 0xffffffff, .allocate 70000]

theorem allocations_safe_sample : ∃ d : Deployment Purse.context,
    (d.allocations 100 d.inst.store sampleUses).filterMap Allocation.block? =
      [⟨320, 10⟩, ⟨330, 70000⟩] ∧ ∀ k ∈ d.allocations 100 d.inst.store sampleUses, k.Safe := by
  have hbuild : ((Deployment.build? Purse.context "purse" Purse.tasks {}).filter fun d =>
      (d.1.allocations 100 d.1.inst.store sampleUses).filterMap Allocation.block? =
        [⟨320, 10⟩, ⟨330, 70000⟩]).isSome := by
    decide +kernel
  obtain ⟨d, hd⟩ := Option.isSome_iff_exists.1 hbuild
  exact ⟨d.1, of_decide_eq_true (Option.filter_eq_some_iff.1 hd).2,
    (Deployment.allocations_safe Codec.Purse.made_registry d.1 100 sampleUses).1⟩

/-- A state with a new heap. -/
def freshHeap (pages limit : Nat) : Vm :=
  ⟨Memory.zeros pages limit, heapStart, 0, 0, {}, []⟩

theorem pages_freshHeap (pages limit : Nat) : (freshHeap pages limit).memory.pages.size = pages :=
  Array.size_replicate

theorem size_freshHeap (pages limit : Nat) : (freshHeap pages limit).memory.size = pages * 65536 := by
  rw [Memory.size, pages_freshHeap, pageSize]

theorem sane_freshHeap {pages limit : Nat} (hpos : 0 < pages) (hle : pages ≤ limit)
    (hlimit : limit ≤ maxPages) : (freshHeap pages limit).Sane := by
  refine ⟨UInt32.le_refl _, ?_, (pages_freshHeap pages limit).le.trans hle, hlimit⟩
  rw [size_freshHeap]
  exact (by decide : heapStart.toNat ≤ 1 * 65536).trans (Nat.mul_le_mul_right 65536 hpos)

theorem allocate_traps_iff_sample : ∃ (d : Deployment Purse.context) (vm' : Vm),
    d.Returns allocate [.i32 70000] (freshHeap 1 2) [.i32 320] vm' ∧ vm'.memory.pages.size = 2 := by
  obtain ⟨d, -⟩ := Purse.roomy
  obtain ⟨hiff, hok⟩ := Deployment.allocate_traps_iff Codec.Purse.made_registry d
    (sane_freshHeap (by decide : 0 < 1) (by decide : 1 ≤ 2) (by decide)) 70000
  have hnot : ¬ d.Traps allocate [.i32 70000] (freshHeap 1 2) := fun h =>
    absurd (hiff.1 h) (by decide)
  obtain ⟨vm', hr, -, hpages⟩ := hok hnot
  exact ⟨d, vm', hr, hpages⟩

/-- In a memory of 4 GiB a small block is refused though all but the start of memory is free. -/
theorem full_memory_traps : ∃ d : Deployment Purse.context, (freshHeap 65536 65536).Sane ∧
    (freshHeap 65536 65536).top.toNat + 16 ≤ (freshHeap 65536 65536).memory.size ∧
    d.Traps allocate [.i32 16] (freshHeap 65536 65536) := by
  obtain ⟨d, -⟩ := Purse.roomy
  have hs : (freshHeap 65536 65536).Sane := sane_freshHeap (by decide) le_rfl le_rfl
  have hrefuses : (freshHeap 65536 65536).Refuses 16 := by
    refine (Vm.refuses_iff hs).2 (.inr ?_)
    rw [pages_freshHeap, maxPages, if_pos rfl]
    exact (by decide : heapStart.toNat + 16 + 65535 < 2 ^ 32)
  refine ⟨d, hs, ?_, ?_⟩
  · rw [size_freshHeap]
    exact (by decide : heapStart.toNat + 16 ≤ 65536 * 65536)
  · exact ((Deployment.allocate_outcome Codec.Purse.made_registry hs 16).resolve_left
      fun h => h.1 hrefuses).2

end MoveCodec.Storage
