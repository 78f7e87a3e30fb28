import MoveCodec.Proofs.Storage.Verdicts

/-!
# What the generators of unpackers make

The unpackers of types, and the function that decodes the parameters of a call.
-/
namespace MoveCodec.Codec

open Wasm Wasm.Emit Assembly Machine Machine.Compute Prelude List

variable {c : Context} {ts : List MoveType} {plan : Plan} {t : MoveType}

variable {r : Registry} {H : Program → Prop}

abbrev UnpacksType (r : Registry) (t : MoveType) (f : FuncId) (p : Program) : Prop :=
  ∀ form, HasForm r t form → form.decodable = true ∧ IsUnpacker p form f

/-! ## Checks -/

theorem makes_checkedWord (src offset width : UInt32) :
    Makes (Serves r) H (checkedWord src offset width) fun code p => ∃ s32 z,
      IsSwap32 p s32 ∧ IsRequireZero p z ∧ code = Prelude.loadWord s32 z src offset width := by
  refine .bind makes_swap32 fun s32 => .bind makes_requireZero fun z => ?_
  exact .pure fun p hp => ⟨s32, z, hp.1.2, hp.2, rfl⟩

theorem makes_checkZero (src offset n : UInt32) :
    Makes (Serves r) H (checkZero src offset n) fun code p => ∃ z,
      (n ≠ 0 → IsRequireZero p z) ∧ code = requireZeroAt z src offset n := by
  unfold checkZero
  split
  · rename_i hn
    refine .pure fun p _ => ⟨0, fun h => absurd hn h, ?_⟩
    rw [requireZeroAt, if_pos hn]
  · refine .bind makes_requireZero fun z => .pure fun p hp => ⟨z, fun _ => hp.2, rfl⟩

/-! ## Words -/

theorem isUnpacker_of_body {p : Program} {f : FuncId} {form : Form} {locals : List ValType}
    {code : Code} (hf : p.funcs[f.toNat]? = some (.code ⟨[.i32, .i32], [t.register]⟩ locals code))
    (hbody : BodyUnpacks p form (locals.map Value.zero) code) : IsUnpacker p form f :=
  fun r base => ⟨_, _, _, hf, rfl, fun vm => hbody r base vm⟩

theorem makes_unpackWord (hH : ∀ p, H p → HasAllocator p) (name : String) {s : Shape}
    (hs : s.Follows r) : Makes (Serves r) H (unpackWord name s) (UnpacksType r s.type) := by
  unfold unpackWord
  split
  · refine .define (.bind (makes_checkedWord 0 0 1) fun word => .pure fun p hp f hf form hform => ?_)
    obtain ⟨s32, z, hs32, hz, rfl⟩ := hp.2
    cases hform
    exact ⟨rfl, isUnpacker_of_body hf (sim_unpackBoolBody hs32 hz)⟩
  · refine .define (.bind (makes_checkedWord 0 0 1) fun word => .pure fun p hp f hf form hform => ?_)
    obtain ⟨s32, z, hs32, hz, rfl⟩ := hp.2
    cases hform
    exact ⟨rfl, isUnpacker_of_body hf (sim_unpackSmall hs32 hz (.inl ⟨rfl, rfl⟩))⟩
  · refine .define (.bind (makes_checkedWord 0 0 2) fun word => .pure fun p hp f hf form hform => ?_)
    obtain ⟨s32, z, hs32, hz, rfl⟩ := hp.2
    cases hform
    exact ⟨rfl, isUnpacker_of_body hf (sim_unpackSmall hs32 hz (.inr (.inl ⟨rfl, rfl⟩)))⟩
  · refine .define (.bind (makes_checkedWord 0 0 4) fun word => .pure fun p hp f hf form hform => ?_)
    obtain ⟨s32, z, hs32, hz, rfl⟩ := hp.2
    cases hform
    exact ⟨rfl, isUnpacker_of_body hf (sim_unpackSmall hs32 hz (.inr (.inr ⟨rfl, rfl⟩)))⟩
  · refine .bind makes_swap64 fun swap => .define ?_
    refine .bind (makes_checkZero 0 0 24) fun check => .pure fun p hp f hf form hform => ?_
    obtain ⟨z, hz, rfl⟩ := hp.2
    cases hform
    exact ⟨rfl, isUnpacker_of_body hf (sim_unpackU64Body (hz (by decide)) hp.1.2)⟩
  · refine .bind makes_reverseBlock16 fun swap => .define ?_
    refine .bind (makes_checkZero 0 0 16) fun check => .pure fun p hp f hf form hform => ?_
    obtain ⟨z, hz, rfl⟩ := hp.2
    cases hform
    exact ⟨rfl, isUnpacker_of_body hf (sim_unpackU128Body (hz (by decide)) (hH p hp.1.1) hp.1.2)⟩
  · refine .bind makes_reverseBlock32 fun swap => .define (.pure fun p hp f hf form hform => ?_)
    cases hform
    exact ⟨rfl, isUnpacker_of_body hf (sim_unpackU256Body (hH p hp.1) hp.2)⟩
  · refine .define (.bind (makes_checkZero 0 0 12) fun check => .pure fun p hp f hf form hform => ?_)
    obtain ⟨z, hz, rfl⟩ := hp.2
    cases hform
    exact ⟨rfl, isUnpacker_of_body hf (sim_unpackAddressBody (hH p hp.1) (hz (by decide)))⟩
  · rename_i d args
    split
    · exact .throw _
    · refine .define (.bind (makes_checkedWord 0 0 1) fun word =>
        .pure fun p hp f hf form hform => ?_)
      obtain ⟨s32, z, hs32, hz, rfl⟩ := hp.2
      cases hform with
      | enum hd _ =>
        obtain rfl : d = _ := Except.ok.inj (hs.symm.trans hd)
        exact ⟨rfl, isUnpacker_of_body hf (sim_unpackTagBody hs32 hz (hH p hp.1) d.variants.length)⟩
  · exact .define (.throw _)

/-! ## Tails -/

theorem makes_unpackTagged (hH : ∀ p, H p → HasAllocator p) (name : String) {d : StructDef}
    {args : List MoveType} (hd : r.structOf d.id args = .ok d) (htag : d.tag ≠ .none) :
    Makes (Serves r) H (unpackTagged name d (.struct d.id args))
      (UnpacksType r (.struct d.id args)) := by
  unfold unpackTagged
  split
  · rename_i hstring
    refine .define (.bind (makes_checkedWord 0 0 4) fun offset =>
      .bind (makes_checkedWord 2 0 4) fun length => .pure fun p hp f hf form hform => ?_)
    obtain ⟨⟨hH', s32, z, hs32, hz, rfl⟩, s32', z', hs32', hz', rfl⟩ := hp
    obtain ⟨h, rfl⟩ | ⟨_, h, -⟩ | ⟨h, -⟩ | ⟨h, -⟩ := hform.of_tag hd htag <;>
      cases hstring.symm.trans h
    exact ⟨rfl, isUnpacker_of_body hf (sim_unpackStringBody (hH p hH') hs32 hz hs32' hz')⟩
  · rename_i n hbytes
    refine .define (.bind (makes_checkZero _ _ _) fun check => .pure fun p hp f hf form hform => ?_)
    obtain ⟨z, hz, rfl⟩ := hp.2
    obtain ⟨h, -⟩ | ⟨n', h, rfl⟩ | ⟨h, -⟩ | ⟨h, -⟩ := hform.of_tag hd htag <;>
      cases hbytes.symm.trans h
    exact ⟨rfl, isUnpacker_of_body hf (sim_unpackBytesBody (hH p hp.1) n' hz)⟩
  · rename_i hid
    refine .define (.pure fun p hp f hf form hform => ?_)
    obtain ⟨h, -⟩ | ⟨_, h, -⟩ | ⟨h, -⟩ | ⟨h, rfl⟩ := hform.of_tag hd htag <;>
      cases hid.symm.trans h
    exact ⟨rfl, isUnpacker_of_body hf (sim_unpackIdentifierBody (hH p hp))⟩
  · exact .throw _

theorem makes_unpackRequest {s : Shape} {gen : Bool → String → Generate FuncId}
    (h : ∀ b name, s.isDynamic r = .ok b →
      Makes (Serves r) H (gen b name) (UnpacksType r s.type)) :
    Makes (Serves r) H (unpackRequest r s gen) (UnpacksType r s.type) :=
  .lift fun b hb => .lift fun _ _ => Makes.request (S := Serves r) fun name => h b name hb

mutual

theorem makes_unpackShape {H : Program → Prop} (hH : ∀ p, H p → HasAllocator p) :
    ∀ s : Shape, s.Follows r → Makes (Serves r) H (unpackShape r s) (UnpacksType r s.type)
  | .vector e, h => by
    rw [unpackShape]
    refine makes_unpackRequest fun _ name _ => ?_
    refine .bind (.under (makes_unpackShape hH e h)) fun func => ?_
    refine .lift fun stride hstride => .lift fun head hhead => ?_
    refine .define (.bind (makes_checkedWord 0 0 4) fun offset =>
      .bind (makes_checkedWord 2 0 4) fun length => .pure fun p hp f hf form hform => ?_)
    obtain ⟨⟨⟨hH', hfunc⟩, s32, z, hs32, hz, rfl⟩, s32', z', hs32', hz', rfl⟩ := hp
    cases hform with
    | vector hform =>
      obtain rfl : stride = _ := Except.ok.inj (hstride.symm.trans hform.stackSize_eq)
      obtain rfl := Shape.headSize_eq (s := e) h hform hhead
      obtain ⟨hdec, hunpack⟩ := hfunc _ hform
      exact ⟨hdec, isUnpacker_of_body hf (sim_unpackVectorBody (hH p hH') hs32 hz hs32' hz'
        ⟨hform.register_eq, rfl, hunpack⟩ rfl)⟩
  | .struct d args fields, h => by
    rw [unpackShape]
    refine makes_unpackRequest fun dynamic name hdynamic => ?_
    refine .lift fun (offsets, size) hlayout => ?_
    refine .bind (makes_unpackFields hH d.name fields offsets h.2.2.2.1) fun parts => ?_
    have hparts : ∀ p, (H p ∧ ∀ fs start, HaveForms r fields.types fs →
        offsets = fs.places start → fs.decodable = true ∧ PartsUnpack p parts fs start) →
        ∀ form, HasForm r (.struct d.id args) form →
          ∃ fs, form = .struct fs ∧ fs.dynamic = dynamic ∧ size = UInt32.ofNat fs.record ∧
            fs.decodable = true ∧ PartsUnpack p parts fs 0 := by
      intro p hp form hform
      obtain ⟨fs, rfl, hfs⟩ := Shape.fields_of_struct h hform
      have hdyn := (Shape.agrees_of_isDynamic (s := .struct d args fields) h hform hdynamic).1
      obtain ⟨hplaces, hsize⟩ := layout_eq hfs hlayout
      exact ⟨fs, rfl, by simpa [Form.dynamic] using hdyn, hsize, hp.2 fs 0 hfs hplaces⟩
    cases dynamic with
    | true =>
      refine .define (.bind (makes_checkedWord 0 0 4) fun word =>
        .pure fun p hp f hf form hform => ?_)
      obtain ⟨hp, s32, z, hs32, hz, rfl⟩ := hp
      obtain ⟨fs, rfl, hdyn, hsize, hdec, hfs⟩ := hparts p hp form hform
      exact ⟨hdec, isUnpacker_of_body hf (sim_unpackDynamicBody (hH p hp.1) hs32 hz hdyn hfs hsize)⟩
    | false =>
      refine .define (.pure fun p hp f hf form hform => ?_)
      obtain ⟨fs, rfl, hdyn, hsize, hdec, hfs⟩ := hparts p hp form hform
      exact ⟨hdec, isUnpacker_of_body hf (sim_unpackStaticBody (hH p hp.1) hdyn hfs hsize)⟩
  | .tagged d args, h => by
    rw [unpackShape]
    exact makes_unpackRequest fun _ name _ => makes_unpackTagged hH name h.1 h.2
  | .bool, h | .int _, h | .address, h | .signer, h | .param _, h | .ref _ _, h | .enum _ _, h
  | .missing _ _, h | .broken _ _ _, h | .endless _ _, h => by
    unfold unpackShape
    exact makes_unpackRequest fun _ name _ => makes_unpackWord hH name h

theorem makes_unpackFields {H : Program → Prop} (hH : ∀ p, H p → HasAllocator p)
    (owner : String) : ∀ (fields : FieldShapes) (offsets : List UInt32), fields.Follow r →
      Makes (Serves r) H (unpackFields r owner fields offsets) fun parts p =>
        ∀ fs start, HaveForms r fields.types fs → offsets = fs.places start →
          fs.decodable = true ∧ PartsUnpack p parts fs start
  | .nil, offsets, _ => by
    rw [unpackFields]
    · refine .pure fun p _ fs start hfs _ => ?_
      cases hfs
      exact ⟨rfl, trivial⟩
    · nofun
  | .cons name s rest, [], _ => by
    rw [unpackFields]
    · refine .pure fun p _ fs start hfs hplaces => ?_
      cases hfs
      cases hplaces
    · nofun
  | .cons name s rest, offset :: offsets, h => by
    rw [unpackFields]
    refine .bind (.under (makes_unpackShape hH s h.1)) fun func => ?_
    refine .lift fun head hhead => ?_
    refine .bind (makes_unpackFields (fun p hp => hH p hp.1) owner rest offsets h.2) fun parts => ?_
    refine .pure fun p hp fs start hfs hplaces => ?_
    cases hfs with
    | cons hform hfs =>
      obtain ⟨rfl, hrest⟩ := List.cons.inj hplaces
      obtain ⟨hdec, hunpack⟩ := hp.1.2 _ hform
      obtain ⟨hdecs, hparts⟩ := hp.2 _ _ hfs hrest
      exact ⟨by simp [Forms.decodable, hdec, hdecs], rfl,
        ⟨hform.register_eq, Shape.headSize_eq h.1 hform hhead, hunpack⟩, rfl, hparts⟩

end

theorem makes_unpack (hH : ∀ p, H p → HasAllocator p) (t : MoveType) :
    Makes (Serves c.registry) H (unpack c t) (UnpacksType c.registry t) := by
  have h := makes_unpackShape hH (c.registry.shape t) (Shape.follows_shape t)
  rwa [Shape.type_shape] at h

/-! ## Plans -/

section

variable {t : MoveType} {k : Intake}

theorem struct_of_txContext (h : r.tagOf t = .txContext) : ∃ id args, t = .struct id args := by
  cases t with
  | struct id args => exact ⟨id, args, rfl⟩
  | _ => cases h

theorem HasIntake.register_eq (h : HasIntake r t k) : (t.register = .i64) = k.wide := by
  cases h with
  | context h =>
    obtain ⟨id, args, rfl⟩ := struct_of_txContext h
    simp [MoveType.register, Intake.wide]
  | value _ _ hform _ => exact hform.register_eq
  | _ => simp [MoveType.register, Intake.wide]

theorem HasIntake.stackSize_eq (h : HasIntake r t k) :
    t.stackSize = .ok (UInt32.ofNat (slotSize k.wide)) := by
  cases h with
  | context h =>
    obtain ⟨id, args, rfl⟩ := struct_of_txContext h
    rfl
  | value _ _ hform _ => exact hform.stackSize_eq
  | _ => rfl

/-- The plan with one more parameter in front, behind a reference or not. -/
theorem PlanOf.cons_unbox {phase : Phase} {type : MoveType} {boxed : Bool}
    (hunbox : unbox phase t = .ok (type, boxed)) (hk : HasIntake r type k)
    {ks : Plan} (hks : PlanOf r ts ks) : PlanOf r (t :: ts) ((boxed, k) :: ks) := by
  unfold unbox at hunbox
  split at hunbox
  · cases hunbox
  · cases hunbox
    exact .ref hk hks
  · cases hunbox
    exact .value hk hks

end

theorem places_of_planOf (h : PlanOf r ts plan)
    {sizes : List UInt32} (hsizes : ts.mapM MoveType.stackSize = .ok sizes) (start : UInt32) :
    Registry.placeFrom start sizes = (plan.places start, start + UInt32.ofNat plan.record) := by
  induction h generalizing sizes start with
  | nil =>
    cases hsizes
    simp [Registry.placeFrom, Plan.places, Plan.record]
  | value hk _ ih =>
    obtain ⟨n, ns, hn, hns, rfl⟩ := mapM_cons_eq_ok hsizes
    obtain rfl := Except.ok.inj (hn.symm.trans hk.stackSize_eq)
    simp only [Registry.placeFrom, ih hns, Plan.places, Plan.record, Intake.place,
      Bool.false_eq_true, if_false, UInt32.ofNat_add, UInt32.add_assoc]
  | ref hk _ ih =>
    obtain ⟨n, ns, hn, hns, rfl⟩ := mapM_cons_eq_ok hsizes
    cases hn
    simp only [Registry.placeFrom, ih hns, Plan.places, Plan.record, Intake.place, if_true,
      UInt32.ofNat_add, UInt32.add_assoc]
    rfl

theorem PlanOf.recordPlaces_eq (h : PlanOf r ts plan)
    {offsets : List UInt32} {size : UInt32}
    (hplaces : Registry.recordPlaces ts = .ok (offsets, size)) :
    offsets = plan.places 0 ∧ size = UInt32.ofNat plan.record := by
  obtain ⟨sizes, hsizes, heq⟩ := Shape.map_eq_ok hplaces
  rw [places_of_planOf h hsizes, UInt32.zero_add] at heq
  exact Prod.mk.inj heq

/-- Parameters that are all read from the call data. -/
theorem PlanOf.forms (h : PlanOf r ts plan)
    (hts : ∀ t ∈ ts, ByValue r t) :
    ∃ fs, plan = .ofForms fs ∧ TupleForms r ts fs ∧ fs.decodable = true := by
  have hvalue {t u : MoveType} {k : Intake} (hk : HasIntake r t k) (ht : target u = t)
      (hu : ByValue r u) : ∃ form, k = .value form ∧ HasForm r t form ∧ form.decodable = true := by
    subst ht
    obtain ⟨hsigner, hcontext, hobject⟩ := hu
    generalize target u = t at hk hsigner hcontext hobject
    cases hk with
    | signer => exact absurd rfl hsigner
    | context h => exact absurd h hcontext
    | object _ h => cases hobject.symm.trans h
    | value _ _ hform hdec => exact ⟨_, rfl, hform, hdec⟩
  induction h with
  | nil => exact ⟨.nil, rfl, .nil, rfl⟩
  | @value t k ts ks hk _ ih =>
    obtain ⟨fs, rfl, hfs, hdecs⟩ := ih fun u hu => hts u (mem_cons_of_mem _ hu)
    have ht : target t = t := by
      cases hk with
      | context h =>
        obtain ⟨id, args, rfl⟩ := struct_of_txContext h
        rfl
      | value _ _ hform _ => cases hform <;> rfl
      | _ => rfl
    obtain ⟨form, rfl, hform, hdec⟩ := hvalue hk ht (hts t (mem_cons_self ..))
    exact ⟨.cons false form fs, rfl, .value hform hfs, by simp [Forms.decodable, hdec, hdecs]⟩
  | @ref m t k ts ks hk _ ih =>
    obtain ⟨fs, rfl, hfs, hdecs⟩ := ih fun u hu => hts u (mem_cons_of_mem _ hu)
    obtain ⟨form, rfl, hform, hdec⟩ := hvalue hk rfl (hts (.ref m t) (mem_cons_self ..))
    exact ⟨.cons true form fs, rfl, .ref hform hfs, by simp [Forms.decodable, hdec, hdecs]⟩

/-! ## Getting a parameter -/

/-- The code gets a parameter into the local `v`; its own locals start there. -/
def Fetches (p : Program) (k : Intake) (v : UInt32) (x : Storage.Piece) : Prop :=
  ∀ (ls : List Value) (n : Nat) (base : UInt32) (vm : Vm), v = UInt32.ofNat n → 2 ≤ n →
    n + x.1.length ≤ ls.length → ls.length ≤ UInt32.size → ls[0]? = some (.i32 base) →
    Sim p x.2 (vm.frame ls []) (Going n ls [] fun y ls' => ls'[n]? = some y)
      ((taking base k).run vm)

section

variable {p : Program} {v : UInt32} {t : ValType} {f : FuncId}

theorem fetches_signer (halloc : HasAllocator p)
    (hf : p.funcs[f.toNat]? = some (.host .txOrigin)) :
    Fetches p .signer v ([t, .i32], alloc 32 (v + 1) ++ fillZero (v + 1) 0 12 ++
      addr (v + 1) 12 ++ [call f, push (v + 1), pop v]) := by
  intro ls n base vm hv hn hlength hsize hbase
  simp only [length_cons, length_nil] at hlength
  have hvn := Storage.toNat_local_zero hv (by omega)
  have hnext : (v + 1).toNat = n + 1 := Storage.toNat_local hv 1 (by omega)
  simp only [taking, paddedOrigin, map_eq_pure_bind, bind_assoc, pure_bind, append_assoc]
  refine .append (sim_alloc vm halloc 32 (v + 1)) fun a vm₁ _ => ?_
  have hlocal : (ls.set (v + 1).toNat (.i32 a))[(v + 1).toNat]? = some (.i32 a) :=
    getElem?_set_self (by omega)
  refine .append (sim_fillZero_here vm₁ (by decide) hlocal) fun _ vm₂ _ => ?_
  rw [sim_addr hlocal]
  refine .callHost hf [a + 12] rfl fun vm₃ _ => ?_
  refine Storage.sim_result hvn (by omega) ?_ hnext ?_
  · rw [hnext]
    exact (Kept.refl n ls).set (by omega) _
  · rw [← hnext]
    exact hlocal

theorem fetches_context : Fetches p .context v ([t], [const zeroWord, pop v]) := by
  intro ls n base vm hv hn hlength hsize hbase
  simp only [length_singleton] at hlength
  rw [sim_const, sim_pop, Storage.toNat_local_zero hv (by omega)]
  exact .nil ⟨_, (Kept.refl n ls).set le_rfl _, getElem?_set_self (by omega), rfl⟩

theorem fetches_object {fields : Forms} (hf : ∀ id, Computes p f [.i32 id]
      (Storage.loading fields id) fun a => [.i32 a]) :
    Fetches p (.object fields) v ([t], [pushGlobal reader, call f, pop v] ++ advance 32) := by
  intro ls n base vm hv hn hlength hsize hbase
  simp only [length_singleton] at hlength
  have hvn := Storage.toNat_local_zero hv (by omega)
  simp only [advance, cons_append, nil_append]
  rw [reader, sim_pushReader, taking, run_state_bind]
  refine sim_look (Sim.call (hf vm.reader) fun a vm' _ => ?_)
  rw [reverse_singleton, singleton_append, sim_pop, sim_pushReader, sim_const, sim_bin rfl,
    sim_popReader, hvn]
  exact .nil ⟨_, (Kept.refl n ls).set le_rfl _, getElem?_set_self (by omega), rfl⟩

theorem fetches_value {form : Form} (hf : IsUnpacker p form f) :
    Fetches p (.value form) v
      ([t], [pushGlobal reader, push 0, call f, pop v] ++ advance form.headWord) := by
  intro ls n base vm hv hn hlength hsize hbase
  simp only [length_singleton] at hlength
  have hvn := Storage.toNat_local_zero hv (by omega)
  simp only [advance, cons_append, nil_append]
  rw [reader, sim_pushReader, sim_local hbase, taking, run_state_bind]
  refine .call (hf vm.reader base) fun x vm' _ => ?_
  rw [reverse_singleton, singleton_append, sim_pop, sim_pushReader, sim_const, sim_bin rfl,
    sim_popReader, hvn]
  exact .nil ⟨_, (Kept.refl n ls).set le_rfl _, getElem?_set_self (by omega), rfl⟩

end

/-- The functions that a source uses do their part. -/
def Source.Takes (p : Program) : Source → Intake → Prop
  | .signer, .signer => True
  | .context, .context => True
  | .object f, .object fields =>
    ∀ id, Computes p f [.i32 id] (Storage.loading fields id) fun a => [.i32 a]
  | .value f head, .value form => head = form.headWord ∧ IsUnpacker p form f
  | _, _ => False

theorem makes_fetch {H : Program → Prop} (hH : ∀ p, H p → HasAllocator p) (q : Param)
    (v : UInt32) : Makes (Serves r) H (fetch c q v) fun x p => 0 < x.1.length ∧
      ∀ k, q.source.Takes p k → Fetches p k v x := by
  unfold fetch
  cases hsource : q.source with
  | signer =>
    refine .bind (.importHost c .txOrigin) fun origin => .pure fun p hp => ⟨by simp, fun k hk => ?_⟩
    cases k with
    | signer => exact fetches_signer (hH p hp.1) hp.2
    | _ => exact hk.elim
  | context =>
    refine .pure fun p _ => ⟨by simp, fun k hk => ?_⟩
    cases k with
    | context => exact fetches_context
    | _ => exact hk.elim
  | object f =>
    refine .pure fun p _ => ⟨by simp, fun k hk => ?_⟩
    cases k with
    | object fields => exact fetches_object hk
    | _ => exact hk.elim
  | value f head =>
    refine .pure fun p _ => ⟨by simp, fun k hk => ?_⟩
    cases k with
    | value form =>
      obtain ⟨rfl, hf⟩ := hk
      exact fetches_value hf
    | _ => exact hk.elim

/-! ## Parameters -/

/-- Parameters that are put into a record from an offset on. -/
def ParamsTake (r : Registry) (p : Program) : List Param → Plan → (offset : UInt32) → Prop
  | [], [], _ => True
  | q :: qs, (boxed, k) :: ks, offset =>
    q.boxed = boxed ∧ q.offset = offset ∧ HasIntake r q.type k ∧ q.source.Takes p k ∧
      ParamsTake r p qs ks (offset + UInt32.ofNat (k.place boxed))
  | _, _, _ => False

/-- The code fills the record in local 1 with parameters; its own locals start at `v`. -/
def Fills (p : Program) (plan : Plan) (offset v : UInt32) (x : Storage.Piece) : Prop :=
  ∀ (ls : List Value) (n : Nat) (rec base : UInt32) (vm : Vm), v = UInt32.ofNat n → 2 ≤ n →
    n + x.1.length ≤ ls.length → ls.length ≤ UInt32.size → ls[0]? = some (.i32 base) →
    ls[1]? = some (.i32 rec) →
    Sim p (x.2 ++ [push 1]) (vm.frame ls []) (Leaves (fun a => [.i32 a]) 1)
      ((takingAll plan rec base offset >>= fun _ => pure rec).run vm)

theorem fills_nil {p : Program} {offset v : UInt32} : Fills p [] offset v ([], []) := by
  intro ls n rec base vm _ _ _ _ _ hrec
  rw [nil_append, sim_local hrec]
  exact .nil ⟨rfl, _, rfl⟩

section

variable {p : Program} {k : Intake} {ks : Plan} {t : MoveType} {offset v : UInt32}
  {locals : List ValType} {code : Code} {rest : Storage.Piece}

theorem fills_value (ht : HasIntake r t k) (hfetch : Fetches p k v (locals, code))
    (hlocals : 0 < locals.length)
    (hrest : Fills p ks (offset + UInt32.ofNat (k.place false)) (v + UInt32.ofNat locals.length)
      rest) :
    Fills p ((false, k) :: ks) offset v (locals ++ rest.1,
      code ++ ([push 1, push v, storeValue t offset] : Code) ++ rest.2) := by
  intro ls n rec base vm hv hn hlength hsize hbase hrec
  simp only [length_append] at hlength
  have hvn := Storage.toNat_local_zero hv (by omega)
  simp only [takingAll, bind_assoc, append_assoc]
  refine .append_going (hfetch ls n base vm hv hn (by simp only; omega) hsize hbase)
    fun x vm₁ ls₁ hx hkept hget => ?_
  have hwide := taking_wide base k vm x vm₁ hx
  have hlen := hkept.length_eq
  have hrec₁ := (hkept.get_eq 1 (by omega)).trans hrec
  simp only [cons_append, nil_append, storeParam, Bool.false_eq_true, if_false]
  rw [sim_local hrec₁, sim_local (by rwa [hvn])]
  refine sim_storeValue ht.register_eq hwide fun vm₂ => ?_
  refine hrest ls₁ (n + locals.length) rec base vm₂ ?_ (by omega) (by omega) (by omega)
    ((hkept.get_eq 0 (by omega)).trans hbase) hrec₁
  rw [hv, UInt32.ofNat_add]

theorem fills_boxed (halloc : HasAllocator p) (ht : HasIntake r t k)
    (hfetch : Fetches p k v (locals, code)) (hlocals : 0 < locals.length)
    (hrest : Fills p ks (offset + UInt32.ofNat (k.place true))
      (v + UInt32.ofNat locals.length + 1) rest) :
    Fills p ((true, k) :: ks) offset v (locals ++ [.i32] ++ rest.1,
      code ++ (alloc (UInt32.ofNat (slotSize k.wide)) (v + UInt32.ofNat locals.length) ++
        [push (v + UInt32.ofNat locals.length), push v, storeValue t 0, push 1,
          push (v + UInt32.ofNat locals.length), store offset] : Code) ++ rest.2) := by
  intro ls n rec base vm hv hn hlength hsize hbase hrec
  simp only [length_append, length_singleton] at hlength
  have hvn := Storage.toNat_local_zero hv (by omega)
  have hnext := Storage.toNat_local hv locals.length (by omega)
  simp only [takingAll, bind_assoc, append_assoc]
  refine .append_going (hfetch ls n base vm hv hn (by simp only; omega) hsize hbase)
    fun x vm₁ ls₁ hx hkept hget => ?_
  have hwide := taking_wide base k vm x vm₁ hx
  have hlen := hkept.length_eq
  simp only [storeParam, if_true, bind_assoc]
  refine .append (sim_alloc vm₁ halloc _ _) fun cell vm₂ _ => ?_
  rw [hnext]
  have hlocal (i : Nat) (hi : i ≠ n + locals.length) :
      (ls₁.set (n + locals.length) (.i32 cell))[i]? = ls₁[i]? := getElem?_set_ne (Ne.symm hi)
  have hcell : (ls₁.set (n + locals.length) (.i32 cell))[(v + UInt32.ofNat locals.length).toNat]? =
      some (.i32 cell) := by
    rw [hnext, getElem?_set_self (by omega)]
  have hvalue : (ls₁.set (n + locals.length) (.i32 cell))[v.toNat]? = some x := by
    rw [hvn, hlocal n (by omega), hget]
  have hrec₁ := (hlocal 1 (by omega)).trans ((hkept.get_eq 1 (by omega)).trans hrec)
  simp only [cons_append, nil_append]
  rw [sim_local hcell, sim_local hvalue]
  refine sim_storeValue ht.register_eq hwide fun vm₃ => ?_
  rw [sim_local hrec₁, sim_local hcell]
  refine .store32 fun vm₄ _ => ?_
  refine hrest _ (n + locals.length + 1) rec base vm₄ ?_ (by omega) (by simp; omega)
    (by simp; omega) ((hlocal 0 (by omega)).trans ((hkept.get_eq 0 (by omega)).trans hbase)) hrec₁
  rw [hv, UInt32.ofNat_add (n + locals.length) 1, UInt32.ofNat_add n]
  rfl

end

theorem makes_fetchAll {H : Program → Prop} (hH : ∀ p, H p → HasAllocator p) :
    ∀ (params : List Param) (v : UInt32), Makes (Serves r) H (fetchAll c v params) fun x p =>
      ∀ plan offset, ParamsTake r p params plan offset → Fills p plan offset v x
  | [], v => .pure fun p _ plan offset h => by
    cases plan with
    | nil => exact fills_nil
    | cons => exact h.elim
  | q :: qs, v => by
    rw [fetchAll]
    refine .bind (makes_fetch hH q v) ?_
    rintro ⟨locals, code⟩
    dsimp only
    split
    · rename_i hboxed
      refine .lift fun size hsize => ?_
      refine .bind (makes_fetchAll (fun p hp => hH p hp.1) qs _) ?_
      rintro ⟨locals', code'⟩
      refine .pure fun p hp plan offset h => ?_
      cases plan with
      | nil => exact h.elim
      | cons b ks =>
        obtain ⟨boxed, k⟩ := b
        obtain ⟨rfl, rfl, ht, hq, hqs⟩ := h
        obtain rfl := Except.ok.inj (hsize.symm.trans ht.stackSize_eq)
        rw [hboxed] at hqs ⊢
        exact fills_boxed (hH p hp.1.1) ht (hp.1.2.2 k hq) hp.1.2.1 (hp.2 ks _ hqs)
    · rename_i hboxed
      have hboxed : q.boxed = false := by simpa using hboxed
      refine .bind (makes_fetchAll (fun p hp => hH p hp.1) qs _) ?_
      rintro ⟨locals', code'⟩
      refine .pure fun p hp plan offset h => ?_
      cases plan with
      | nil => exact h.elim
      | cons b ks =>
        obtain ⟨boxed, k⟩ := b
        obtain ⟨rfl, rfl, ht, hq, hqs⟩ := h
        rw [hboxed] at hqs ⊢
        exact fills_value ht (hp.1.2.2 k hq) hp.1.2.1 (hp.2 ks _ hqs)

theorem exists_struct_of_isObject {r : Registry} (h : (r.shape t).isObject = true) :
    ∃ id args, t = .struct id args := by
  have htype : (r.shape t).type = t := Shape.type_shape t
  cases hs : r.shape t with
  | tagged | struct | broken | endless =>
    rw [hs] at htype
    exact ⟨_, _, htype.symm⟩
  | _ =>
    rw [hs] at h
    cases h

theorem sourceOf_value (hsigner : t ≠ .signer) (hcontext : c.registry.tagOf t ≠ .txContext)
    (hobject : ¬ (c.registry.shape t).isObject = true) : sourceOf c t = do
      let func ← unpack c t
      return Source.value func (← lift (c.registry.headSize t)) := by
  rw [sourceOf, if_neg hsigner, if_neg hcontext]
  dsimp only
  split
  · rw [if_neg hobject]
  · rfl

/-- A source is what its type says, and its functions do their part. -/
theorem makes_sourceOf (hc : c.registry.Made) (hH : ∀ p, H p → HasAllocator p)
    (t : MoveType) : Makes (Serves c.registry) H (sourceOf c t) fun source p =>
      ∃ k, HasIntake c.registry t k ∧ source.Takes p k := by
  by_cases hsigner : t = .signer
  · rw [sourceOf, if_pos hsigner]
    subst hsigner
    exact .pure fun p _ => ⟨.signer, .signer, trivial⟩
  by_cases hcontext : c.registry.tagOf t = .txContext
  · rw [sourceOf, if_neg hsigner, if_pos hcontext]
    exact .pure fun p _ => ⟨.context, .context hcontext, trivial⟩
  by_cases hobject : (c.registry.shape t).isObject = true
  · obtain ⟨id, args, rfl⟩ := exists_struct_of_isObject hobject
    rw [sourceOf, if_neg hsigner, if_neg hcontext]
    dsimp only
    rw [if_pos hobject]
    refine .bind (Storage.makes_load_object hc hH id args) fun func => .pure fun p hp => ?_
    obtain ⟨-, d, cells, fs, hd, hcells, hfs, hfunc⟩ := hp
    exact ⟨.object fs, .object hcontext hobject hd hcells hfs, hfunc⟩
  · rw [sourceOf_value hsigner hcontext hobject]
    refine .bind (makes_unpack hH t) fun func => .lift fun head hhead => .pure fun p hp => ?_
    obtain ⟨form, hform⟩ := hc.exists_form_of_headSize hhead
    obtain ⟨hdec, hfunc⟩ := hp.2 form hform
    exact ⟨.value form, .value hcontext (by simpa using hobject) hform hdec, Shape.headSize_eq
      (Shape.follows_shape t) (by rwa [Shape.type_shape]) hhead, hfunc⟩

theorem makes_callParams (hc : c.registry.Made) {H : Program → Prop}
    (hH : ∀ p, H p → HasAllocator p) : ∀ (ts : List MoveType) (offsets : List UInt32) (i : Nat),
      ts.length = offsets.length →
      Makes (Serves c.registry) H (callParams c i (ts.zip offsets)) fun params p =>
        ∃ plan, PlanOf c.registry ts plan ∧
          ∀ start, offsets = plan.places start → ParamsTake c.registry p params plan start
  | [], offsets, i, _ => .pure fun p _ => ⟨[], .nil, fun _ _ => trivial⟩
  | t :: ts, offset :: offsets, i, hlength => by
    rw [zip_cons_cons, callParams]
    refine .lift fun (type, boxed) hunbox => ?_
    refine .bind (.under (makes_sourceOf hc hH type)) fun source => ?_
    refine .bind (makes_callParams hc (fun p hp => hH p hp.1) ts offsets (i + 1)
      (Nat.succ.inj hlength)) fun params => ?_
    refine .pure fun p hp => ?_
    obtain ⟨⟨-, k, hk, htakes⟩, plan, hplan, hparams⟩ := hp
    refine ⟨(boxed, k) :: plan, hplan.cons_unbox hunbox hk, fun start hplaces => ?_⟩
    obtain ⟨rfl, hrest⟩ := List.cons.inj hplaces
    exact ⟨rfl, rfl, hk, htakes, hparams _ hrest⟩

/-- The function collects parameters of these types. -/
abbrev UnpacksParams (r : Registry) (ts : List MoveType) (f : FuncId) (p : Program) : Prop :=
  ∃ plan, PlanOf r ts plan ∧
    ∀ base, Computes p f [.i32 base] (takingTuple plan base) fun a => [.i32 a]

theorem makes_unpackParams (hc : c.registry.Made) (hH : ∀ p, H p → HasAllocator p)
    (ts : List MoveType) :
    Makes (Serves c.registry) H (unpackValues c ts) (UnpacksParams c.registry ts) := by
  refine .lift fun (offsets, size) hplaces => ?_
  refine Makes.request (S := Serves c.registry) fun name => ?_
  refine .bind (makes_callParams hc hH ts offsets 0 (length_recordPlaces hplaces)) fun params => ?_
  refine .define_fits (.bind (makes_fetchAll (fun p hp => hH p hp.1) params 2) fun x => ?_)
  obtain ⟨locals, code⟩ := x
  refine .pure fun p hp f hf hlocals => ?_
  obtain ⟨⟨halloc, plan, hplan, hparams⟩, hfills⟩ := hp
  obtain ⟨hoffsets, rfl⟩ := hplan.recordPlaces_eq hplaces
  refine ⟨plan, hplan, fun base => ⟨_, _, _, hf, rfl, fun vm => ?_⟩⟩
  have hfill := hfills plan 0 (hparams 0 hoffsets)
  rw [takingTuple, append_assoc, append_assoc]
  simp only [cons_append, nil_append]
  rw [sim_local rfl, reader, sim_popReader, run_update_bind]
  refine .append (sim_alloc _ (hH p halloc) _ _) fun rec vm₁ _ => ?_
  refine hfill _ 2 rec base vm₁ rfl le_rfl ?_ ?_ rfl rfl
  · simp
    omega
  · simp only [length_set, length_map, length_cons] at hlocals ⊢
    simpa using hlocals

/-- The function unpacks parameters of these types that are read from the call data. -/
abbrev UnpacksTuple (r : Registry) (ts : List MoveType) (f : FuncId) (p : Program) : Prop :=
  (∀ t ∈ ts, ByValue r t) → ∃ fs, TupleForms r ts fs ∧ fs.decodable = true ∧
    ∀ base, Computes p f [.i32 base] (unpackingTuple fs base) fun a => [.i32 a]

theorem makes_unpackValues (hc : c.registry.Made) (hH : ∀ p, H p → HasAllocator p)
    (ts : List MoveType) :
    Makes (Serves c.registry) H (unpackValues c ts) (UnpacksTuple c.registry ts) := by
  refine (makes_unpackParams hc hH ts).mono (fun _ hp => hp) fun f p _ ⟨plan, hplan, hf⟩ hts => ?_
  obtain ⟨fs, rfl, hfs, hdec⟩ := hplan.forms hts
  exact ⟨fs, hfs, hdec, fun base => takingTuple_ofForms fs base ▸ hf base⟩

end MoveCodec.Codec
