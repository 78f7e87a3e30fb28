import MoveCodec.Proofs.Codec.Generators

/-!
# Generators of storage code

The generators of storage code keep the table of the codec sound: what they request from the codec
is what the codec has under that name.
-/
namespace MoveCodec.Storage

open Wasm Wasm.Emit Assembly Machine Prelude Codec List

variable {d : StructDef} {fields : FieldShapes} {form : Form}

variable {r : Registry} {H : Program → Prop}

abbrev KeepsTable (r : Registry) (H : Program → Prop) {α : Type} (g : Generate α) : Prop :=
  Makes (Serves r) H g fun _ _ => True

namespace KeepsTable

variable {α β : Type} {g : Generate α}

theorem of_makes {Q : α → Program → Prop} (h : Makes (Serves r) H g Q) : KeepsTable r H g :=
  h.mono (fun _ hp => hp) fun _ _ _ _ => trivial

theorem pure (x : α) : KeepsTable r H (Pure.pure x) := Makes.pure fun _ _ => trivial

theorem bind {k : α → Generate β} (hg : KeepsTable r H g) (hk : ∀ x, KeepsTable r H (k x)) :
    KeepsTable r H (g >>= k) :=
  Makes.bind hg fun x => (hk x).mono (fun _ hp => hp.1) fun _ _ _ h => h

/-- A function of which the table says nothing. -/
theorem request {kind : String} {args : List MoveType}
    (hkind : ∀ f p, Serves r kind args f p) {params results : List ValType}
    {body : Generate (List ValType × Code)} (hbody : KeepsTable r H body) :
    KeepsTable r H (Assembly.request kind args fun name => define name params results body) :=
  of_makes (Makes.request (S := Serves r) fun _ =>
    .define (hbody.mono (fun _ hp => hp) fun _ _ _ _ f _ => hkind f _))

end KeepsTable

/-! ## Slots -/

theorem makes_addWide : Makes (Serves r) H addWide fun f p => IsAddWide p f := by
  refine Makes.request (S := Serves r) fun name => .define (.pure fun p _ f hf a b dst => ?_)
  exact ⟨_, _, _, hf, rfl, fun vm => sim_addBody a b dst vm⟩

theorem makes_stepSlot : Makes (Serves r) H stepSlot fun f p => IsStepSlot p f := by
  refine .bind makes_reverseBlock32 fun swap => .bind makes_addWide fun add => ?_
  refine Makes.request (S := Serves r) fun name => .define (.pure fun p hp f hf ptr => ?_)
  exact ⟨_, _, _, hf, rfl, fun vm => sim_nextSlotBody hp.1.2 hp.2 ptr vm⟩

theorem makes_sameWord : Makes (Serves r) H sameWord fun f p => IsSameWord p f := by
  refine Makes.request (S := Serves r) fun name => .define (.pure fun p _ f hf a b => ?_)
  exact ⟨_, _, _, hf, rfl, fun vm => sim_sameWordBody a b vm⟩

theorem makes_deriveSlot (c : Context) : Makes (Serves r) H (deriveSlot c) fun f p =>
    IsDeriveSlot p f := by
  refine .bind (.importHost c .keccak) fun keccak => ?_
  refine Makes.request (S := Serves r) fun name => .define (.pure fun p hp f hf owner id => ?_)
  exact ⟨_, _, _, hf, rfl, fun vm => sim_deriveSlotBody hp.2 owner id vm⟩

theorem makes_locate (c : Context) : Makes (Serves r) H (locate c) fun f p =>
    ∀ id, Computes p f [.i32 id] (locating id) fun _ => [] := by
  refine .bind (makes_deriveSlot c) fun slot => .bind makes_sameWord fun eq => ?_
  refine .bind (.importHost c .txOrigin) fun origin => .bind (.importHost c .storageLoad) fun load => ?_
  refine Makes.request (S := Serves r) fun name => .define (.pure fun p hp f hf id => ?_)
  obtain ⟨⟨⟨⟨-, hslot⟩, heq⟩, horigin⟩, hload⟩ := hp
  exact ⟨_, _, _, hf, rfl, fun vm => sim_locateBody ⟨hslot, hload, heq⟩ horigin⟩

/-! ## Words -/

theorem form_of_fixed {id : DefId} {args : List MoveType}
    (hform : HasForm r (.struct id args) form)
    (htag : r.tagOf (.struct id args) = .uid ∨ r.tagOf (.struct id args) = .id ∨
      ∃ n, r.tagOf (.struct id args) = .bytes n) :
    (∃ n : Fin 33, r.tagOf (.struct id args) = .bytes n ∧ form = .bytes n) ∨
      (r.tagOf (.struct id args) = .uid ∧ form = .uid) ∨
      r.tagOf (.struct id args) = .id ∧ form = .id := by
  cases hform with
  | bytes hd ht => exact .inl ⟨_, (Registry.tagOf_eq hd).trans ht, rfl⟩
  | uid hd ht => exact .inr (.inl ⟨(Registry.tagOf_eq hd).trans ht, rfl⟩)
  | id hd ht => exact .inr (.inr ⟨(Registry.tagOf_eq hd).trans ht, rfl⟩)
  | string hd ht | struct hd ht =>
    rw [Registry.tagOf_eq hd, ht] at htag
    simp at htag

abbrev WritesType (r : Registry) (t : MoveType) (v : UInt32) (x : Piece) (p : Program) : Prop :=
  ∀ form, HasForm r t form → WritesWord p form v x ∧ ∀ fs, form ≠ .struct fs

abbrev ReadsType (r : Registry) (t : MoveType) (v : UInt32) (x : Piece) (p : Program) : Prop :=
  ∀ form, HasForm r t form → ReadsWord p form v x ∧ 0 < x.1.length ∧ ∀ fs, form ≠ .struct fs

theorem makes_wordOfValue (t : MoveType) (v : UInt32) :
    Makes (Serves r) H (wordOfValue r t v 2 (v + 1)) (WritesType r t v) := by
  unfold wordOfValue
  split
  iterate 4
    · refine .bind makes_swap32 fun swap => .pure fun p hp form hform => ?_
      cases hform
      exact ⟨writesWord_small hp.2 rfl fun _ _ => rfl, nofun⟩
  · refine .bind makes_swap32 fun swap => .pure fun p hp form hform => ?_
    cases hform
    exact ⟨writesWord_enum hp.2 _, nofun⟩
  · refine .bind makes_swap64 fun swap => .pure fun p hp form hform => ?_
    cases hform
    exact ⟨writesWord_u64 hp.2, nofun⟩
  · refine .bind makes_reverseBlock16 fun swap => .pure fun p hp form hform => ?_
    cases hform
    exact ⟨writesWord_u128 hp.2, nofun⟩
  · refine .bind makes_reverseBlock32 fun swap => .pure fun p hp form hform => ?_
    cases hform
    exact ⟨writesWord_u256 hp.2, nofun⟩
  · refine .pure fun p _ form hform => ?_
    cases hform
    exact ⟨writesWord_address, nofun⟩
  · split
    all_goals first | exact .throw _ | skip
    all_goals
      rename_i htag
      refine .pure fun p _ form hform => ?_
      have hfixed := form_of_fixed hform (by simp [htag])
      refine ⟨writesWord_bytes hfixed, ?_⟩
      rcases hfixed with ⟨_, -, rfl⟩ | ⟨-, rfl⟩ | ⟨-, rfl⟩ <;> nofun
  · exact .throw _

theorem makes_valueOfWord (hH : ∀ p, H p → HasAllocator p) (t : MoveType) (v : UInt32) :
    Makes (Serves r) H (valueOfWord r t 1 v) (ReadsType r t v) := by
  unfold valueOfWord
  split
  iterate 4
    · refine .bind makes_swap32 fun swap => .pure fun p hp form hform => ?_
      cases hform
      exact ⟨readsWord_small hp.2 fun _ => rfl, Nat.succ_pos _, nofun⟩
  · refine .bind makes_swap32 fun swap => .pure fun p hp form hform => ?_
    cases hform
    exact ⟨readsWord_enum (hH p hp.1) hp.2 _, Nat.succ_pos _, nofun⟩
  · refine .bind makes_swap64 fun swap => .pure fun p hp form hform => ?_
    cases hform
    exact ⟨readsWord_u64 hp.2, Nat.succ_pos _, nofun⟩
  · refine .bind makes_reverseBlock16 fun swap => .pure fun p hp form hform => ?_
    cases hform
    exact ⟨readsWord_u128 (hH p hp.1) hp.2, Nat.succ_pos _, nofun⟩
  · refine .bind makes_reverseBlock32 fun swap => .pure fun p hp form hform => ?_
    cases hform
    exact ⟨readsWord_u256 (hH p hp.1) hp.2, Nat.succ_pos _, nofun⟩
  · refine .pure fun p hp form hform => ?_
    cases hform
    exact ⟨readsWord_copy (hH p hp) fun _ => rfl, Nat.succ_pos _, nofun⟩
  · dsimp only
    split
    · rename_i htag
      refine .pure fun p hp form hform => ?_
      obtain ⟨n, -, rfl⟩ | ⟨h, -⟩ | ⟨h, -⟩ := form_of_fixed hform (by simp [htag])
      · exact ⟨readsWord_copy (hH p hp) fun _ => rfl, Nat.succ_pos _, nofun⟩
      all_goals cases htag.symm.trans h
    · rename_i htag
      refine .pure fun p hp form hform => ?_
      obtain ⟨n, h, -⟩ | ⟨h, -⟩ | ⟨-, rfl⟩ := form_of_fixed hform (by simp [htag])
      · cases htag.symm.trans h
      · cases htag.symm.trans h
      · exact ⟨readsWord_id (hH p hp), Nat.succ_pos _, nofun⟩
    · rename_i htag
      refine .pure fun p hp form hform => ?_
      obtain ⟨n, h, -⟩ | ⟨-, rfl⟩ | ⟨h, -⟩ := form_of_fixed hform (by simp [htag])
      · cases htag.symm.trans h
      · exact ⟨readsWord_uid (hH p hp), Nat.succ_pos _, nofun⟩
      · cases htag.symm.trans h
    · exact .throw _
  · exact .throw _

/-! ## Fields -/

def Laid (r : Registry) : Shape → Prop
  | .struct d args fields =>
    (∃ fs, r.fields d.id args = .ok fs ∧ fields.types = fs.map (·.type)) ∧ fields.Follow r
  | _ => True

theorem laid_of_follows {s : Shape} (h : s.Follows r) : Laid r s := by
  cases s with
  | struct d args fields =>
    obtain ⟨hd, -, ⟨fs, hfs, htypes⟩, hfollow, -⟩ := h
    refine ⟨⟨fs, ?_, htypes⟩, hfollow⟩
    rw [Registry.fields, hd]
    exact hfs
  | _ => trivial

theorem Laid.forms {args : List MoveType} {fs : Forms}
    (h : Laid r (.struct d args fields)) (hfs : FieldForms r (.struct d.id args) fs) :
    HaveForms r fields.types fs := by
  obtain ⟨⟨gs, hgs, htypes⟩, -⟩ := h
  obtain ⟨gs', hgs', hforms⟩ := hfs
  cases hgs.symm.trans hgs'
  rwa [htypes]

theorem fieldForms_of_follows {args : List MoveType}
    (h : (Shape.struct d args fields).Follows r)
    (hform : HasForm r (.struct d.id args) form) :
    ∃ fs, form = .struct fs ∧ FieldForms r (.struct d.id args) fs := by
  obtain ⟨gs, rfl, hgs⟩ := Shape.fields_of_struct h hform
  obtain ⟨⟨fs, hfs, htypes⟩, -⟩ := laid_of_follows h
  exact ⟨gs, rfl, fs, hfs, htypes ▸ hgs⟩

mutual

theorem makes_fieldWriter {c : Context} {H : Program → Prop} : ∀ s : Shape, Laid c.registry s →
    Makes (Serves c.registry) H (fieldWriter c s) fun f p => Numbered p → ∀ fs,
      FieldForms c.registry s.type fs → ∀ rec slot,
        Computes p f [.i32 rec, .i32 slot] (storingAll fs rec slot 0) fun _ => []
  | .struct d args fields, h => by
    rw [fieldWriter]
    refine .lift fun (offsets, size) hlayout => ?_
    refine .bind makes_stepSlot fun next => .bind (.importHost c .storageCache) fun cache => ?_
    refine Makes.request (S := Serves c.registry) fun name => ?_
    refine .define (.bind (makes_saveEach next cache
      (fun p hp => ⟨hp.1.2, hp.2⟩) 3 fields offsets h.2) fun (locals, code) => ?_)
    refine .pure fun p hp f hf hnumbered fs hfs rec slot => ⟨_, _, _, hf, rfl, fun vm => ?_⟩
    have hforms := h.forms hfs
    refine sim_fieldWriterBody (hp.2 hnumbered fs 0 hforms (layout_eq hforms hlayout).1) ?_ rec slot vm
    have := hnumbered _ _ _ _ hf
    simp only [length_cons, length_nil] at this
    omega
  | .bool, _ | .int _, _ | .address, _ | .signer, _ | .vector _, _ | .enum _ _, _ | .ref _ _, _
  | .param _, _ | .tagged _ _, _ | .missing _ _, _ | .broken _ _ _, _ | .endless _ _, _ => by
    unfold fieldWriter
    exact .throw _

theorem makes_saveEach {c : Context} {H : Program → Prop} (next cache : FuncId)
    (hH : ∀ p, H p → IsStepSlot p next ∧ p.funcs[cache.toNat]? = some (.host .storageCache))
    (v : UInt32) : ∀ (fields : FieldShapes) (offsets : List UInt32), fields.Follow c.registry →
      Makes (Serves c.registry) H (saveEach c next cache v fields offsets) fun x p =>
        Numbered p → ∀ fs offset, HaveForms c.registry fields.types fs →
          offsets = fs.places offset → SavesFields p fs offset v x
  | .nil, _, _ => by
    unfold saveEach
    refine .pure fun p _ _ fs offset hfs _ => ?_
    cases hfs
    exact savesFields_nil
  | .cons _ _ _, [], _ => by
    unfold saveEach
    refine .pure fun p _ _ fs offset hfs hoffsets => ?_
    cases hfs
    cases hoffsets
  | .cons name s rest, offset :: offsets, hfollow => by
    unfold saveEach
    dsimp only
    split
    · rename_i d args fields
      refine .bind (.under (makes_fieldWriter (.struct d args fields)
        (laid_of_follows hfollow.1))) fun inner => ?_
      rw [pure_bind]
      refine .bind (makes_saveEach next cache (fun p hp => hH p hp.1) _ rest offsets hfollow.2) fun x => ?_
      refine .pure fun p hp hnumbered fs start hfs hoffsets => ?_
      obtain ⟨⟨-, hinner⟩, hrest⟩ := hp
      cases hfs with
      | cons hf hfs =>
        obtain ⟨rfl, hoffsets⟩ := List.cons.inj hoffsets
        obtain ⟨gs, rfl, hgs⟩ := fieldForms_of_follows hfollow.1 hf
        refine savesFields_struct hf.register_eq (hinner hnumbered gs hgs) rfl ?_
        have h := hrest hnumbered _ _ hfs hoffsets
        simp only [length_nil, UInt32.reduceOfNat, UInt32.add_zero] at h
        exact h
    · rename_i hstruct
      refine .bind (.under (makes_wordOfValue s.type v)) fun (locals, code) => ?_
      rw [pure_bind]
      refine .bind (makes_saveEach next cache (fun p hp => hH p hp.1) _ rest offsets hfollow.2) fun x => ?_
      refine .pure fun p hp hnumbered fs start hfs hoffsets => ?_
      obtain ⟨⟨hp, hword⟩, hrest⟩ := hp
      cases hfs with
      | cons hf hfs =>
        obtain ⟨rfl, hoffsets⟩ := List.cons.inj hoffsets
        obtain ⟨hwrites, hplain⟩ := hword _ hf
        exact savesFields_word hf.register_eq (hrest hnumbered _ _ hfs hoffsets) (hH p hp).1
          (hH p hp).2 hplain hwrites

end

mutual

theorem makes_fieldReader {c : Context} {H : Program → Prop} (hH : ∀ p, H p → HasAllocator p) :
    ∀ s : Shape, Laid c.registry s →
      Makes (Serves c.registry) H (fieldReader c s) fun f p => ∀ fs,
        FieldForms c.registry s.type fs → ∀ slot,
          Computes p f [.i32 slot] (readingRecord fs slot) fun a => [.i32 a]
  | .struct d args fields, h => by
    rw [fieldReader]
    refine .lift fun (offsets, size) hlayout => ?_
    refine .bind makes_stepSlot fun next => .bind (.importHost c .storageLoad) fun load => ?_
    refine Makes.request (S := Serves c.registry) fun name => ?_
    refine .define_fits (.bind (makes_readEach next load
      (fun p hp => ⟨hH p hp.1.1, hp.1.2, hp.2⟩) 3 fields offsets h.2) fun (locals, code) => ?_)
    refine .pure fun p hp f hf hlocals fs hfs slot => ⟨_, _, _, hf, rfl, fun vm => ?_⟩
    have hforms := h.forms hfs
    obtain ⟨hoffsets, hsize⟩ := layout_eq hforms hlayout
    refine sim_fieldReaderBody (hH p hp.1.1.1) hsize (hp.2 fs 0 hforms hoffsets) ?_ slot vm
    simp only [length_cons] at hlocals
    omega
  | .bool, _ | .int _, _ | .address, _ | .signer, _ | .vector _, _ | .enum _ _, _ | .ref _ _, _
  | .param _, _ | .tagged _ _, _ | .missing _ _, _ | .broken _ _ _, _ | .endless _ _, _ => by
    unfold fieldReader
    exact .throw _

theorem makes_readEach {c : Context} {H : Program → Prop} (next load : FuncId)
    (hH : ∀ p, H p → HasAllocator p ∧ IsStepSlot p next ∧
      p.funcs[load.toNat]? = some (.host .storageLoad))
    (v : UInt32) : ∀ (fields : FieldShapes) (offsets : List UInt32), fields.Follow c.registry →
      Makes (Serves c.registry) H (readEach c next load v fields offsets) fun x p =>
        ∀ fs offset, HaveForms c.registry fields.types fs → offsets = fs.places offset →
          ReadsFields p fs offset v x
  | .nil, _, _ => by
    unfold readEach
    refine .pure fun p _ fs offset hfs _ => ?_
    cases hfs
    exact readsFields_nil
  | .cons _ _ _, [], _ => by
    unfold readEach
    refine .pure fun p _ fs offset hfs hoffsets => ?_
    cases hfs
    cases hoffsets
  | .cons name s rest, offset :: offsets, hfollow => by
    unfold readEach
    dsimp only
    split
    · rename_i d args fields
      refine .bind (.under (makes_fieldReader (fun p hp => (hH p hp).1) (.struct d args fields)
        (laid_of_follows hfollow.1))) fun inner => ?_
      rw [pure_bind]
      refine .bind (makes_readEach next load (fun p hp => hH p hp.1) _ rest offsets hfollow.2) fun x => ?_
      refine .pure fun p hp fs start hfs hoffsets => ?_
      obtain ⟨⟨-, hinner⟩, hrest⟩ := hp
      cases hfs with
      | cons hf hfs =>
        obtain ⟨rfl, hoffsets⟩ := List.cons.inj hoffsets
        obtain ⟨gs, rfl, hgs⟩ := fieldForms_of_follows hfollow.1 hf
        exact readsFields_struct hf.register_eq (hinner gs hgs) rfl (hrest _ _ hfs hoffsets)
    · rename_i hstruct
      refine .bind (.under (makes_valueOfWord (fun p hp => (hH p hp).1) s.type v))
        fun (locals, code) => ?_
      rw [pure_bind]
      refine .bind (makes_readEach next load (fun p hp => hH p hp.1) _ rest offsets hfollow.2) fun x => ?_
      refine .pure fun p hp fs start hfs hoffsets => ?_
      obtain ⟨⟨hp, hword⟩, hrest⟩ := hp
      cases hfs with
      | cons hf hfs =>
        obtain ⟨rfl, hoffsets⟩ := List.cons.inj hoffsets
        obtain ⟨hreads, hlocals, hplain⟩ := hword _ hf
        exact readsFields_word hf.register_eq (hrest _ _ hfs hoffsets) (hH p hp).2.1
          (hH p hp).2.2 hplain hreads hlocals

end

/-! ## Objects -/

theorem structOf_of_requireObject {id : DefId} {args : List MoveType}
    (h : r.requireObject id args = .ok d) : r.structOf id args = .ok d := by
  obtain ⟨d', hd', hrest⟩ := bind_eq_ok h
  split at hrest
  · cases hrest
  obtain ⟨fs, -, hrest⟩ := bind_eq_ok hrest
  split at hrest
  · cases hrest
  cases hrest
  exact hd'

theorem laid_of_fieldShapes {args : List MoveType}
    (h : r.fieldShapes d.id args = .ok fields) : Laid r (.struct d args fields) := by
  obtain ⟨fs, hfs, hshapes⟩ := bind_eq_ok h
  cases hshapes
  refine ⟨⟨fs, hfs, ?_⟩, FieldShapes.follow_ofList ?_⟩
  · simp [FieldShapes.types_ofList, Shape.type_shape]
  · intro f hf
    obtain ⟨g, -, rfl⟩ := mem_map.1 hf
    exact Shape.follows_shape g.type

theorem storable_of_run {c : Context} {id : DefId} {args : List MoveType} {α : Type} {k : Stored → Generate α} {a b : Assembly} {y : α}
    (h : (stored c id args >>= k).run a = .ok y b) : ∃ s cells,
      c.registry.requireObject id args = .ok s ∧ c.registry.storageLayout id args = .ok cells := by
  rw [stored, bind_assoc] at h
  cases hobject : c.registry.requireObject id args with
  | error e =>
    rw [hobject] at h
    cases h
  | ok s =>
    cases hcells : c.registry.storageLayout id args with
    | error e =>
      rw [hobject, hcells] at h
      cases h
    | ok cells => exact ⟨s, cells, rfl, rfl⟩

theorem makes_stored {c : Context} (id : DefId) (args : List MoveType) {Q : FuncId → Program → Prop}
    {k : Stored → Generate FuncId}
    (h : ∀ d fields cells, c.registry.storageLayout id args = .ok cells → d.id = id →
      Laid c.registry (.struct d args fields) →
      Makes (Serves c.registry) H (k ⟨.struct id args, .struct d args fields, cells⟩) Q) :
    Makes (Serves c.registry) H (stored c id args >>= k) Q := by
  unfold stored
  simp only [bind_assoc, pure_bind]
  refine .lift fun d hd => .lift fun cells hcells => .lift fun fields hfields => ?_
  have hid := Registry.id_of_structOf (structOf_of_requireObject hd)
  subst hid
  exact h d fields cells hcells rfl (laid_of_fieldShapes hfields)

variable {c : Context} (hH : ∀ p, H p → HasAllocator p) (id : DefId) (args : List MoveType)

include hH

theorem makes_save : Makes (Serves c.registry) H (save c id args) fun f p => Numbered p → ∀ fs,
    FieldForms c.registry (.struct id args) fs → ∀ rec owner,
      Computes p f [.i32 rec, .i32 owner] (saving fs rec owner) fun _ => [] := by
  refine makes_stored id args fun d fields cells _ hid hlaid => ?_
  refine .bind (makes_deriveSlot c) fun slot => ?_
  refine .bind (makes_fieldWriter _ hlaid) fun inner => .bind (.importHost c .storageFlush) fun flush => ?_
  refine Makes.request (S := Serves c.registry) fun name => ?_
  refine .define (.pure fun p hp f hf hnumbered fs hfs rec owner => ?_)
  obtain ⟨⟨⟨hp, hslot⟩, hinner⟩, hflush⟩ := hp
  subst hid
  exact ⟨_, _, _, hf, rfl, fun vm =>
    sim_saveBody (hH p hp) hslot (hinner hnumbered fs hfs) hflush rec owner vm⟩

theorem makes_read : Makes (Serves c.registry) H (read c id args) fun f p => ∀ fs,
    FieldForms c.registry (.struct id args) fs → ∀ owner id,
      Computes p f [.i32 owner, .i32 id] (retrieving fs owner id) fun a => [.i32 a] := by
  refine makes_stored id args fun d fields cells _ hid hlaid => ?_
  refine .bind (makes_deriveSlot c) fun slot => .bind makes_sameWord fun eq => ?_
  refine .bind (makes_fieldReader (fun p hp => hH p hp.1.1) _ hlaid) fun inner => ?_
  refine Makes.request (S := Serves c.registry) fun name => ?_
  refine .define (.pure fun p hp f hf fs hfs owner ident => ?_)
  obtain ⟨⟨⟨hp, hslot⟩, heq⟩, hinner⟩ := hp
  subst hid
  exact ⟨_, _, _, hf, rfl, fun vm =>
    sim_readBody (hH p hp) hslot heq (hinner fs hfs) owner ident vm⟩

theorem makes_load : Makes (Serves c.registry) H (load c id args) fun f p => ∀ fs,
    FieldForms c.registry (.struct id args) fs → ∀ id,
      Computes p f [.i32 id] (loading fs id) fun a => [.i32 a] := by
  refine makes_stored id args fun d fields cells _ hid hlaid => ?_
  refine .bind (makes_locate c) fun locate => ?_
  refine .bind (makes_fieldReader (fun p hp => hH p hp.1) _ hlaid) fun inner => ?_
  refine Makes.request (S := Serves c.registry) fun name => ?_
  refine .define (.pure fun p hp f hf fs hfs ident => ?_)
  obtain ⟨⟨hp, hlocate⟩, hinner⟩ := hp
  subst hid
  exact ⟨_, _, _, hf, rfl, fun vm => sim_loadBody (hH p hp) hlocate (hinner fs hfs) ident vm⟩

theorem makes_delete : Makes (Serves c.registry) H (delete c id args) fun f p => ∃ cells,
    c.registry.storageLayout id args = .ok cells ∧ ∀ rec owner,
      Computes p f [.i32 rec, .i32 owner] (deleting cells.length rec owner) fun _ => [] := by
  refine makes_stored id args fun d fields cells hcells _ _ => ?_
  refine .bind (makes_deriveSlot c) fun slot => .bind makes_stepSlot fun next => ?_
  refine .bind (.importHost c .storageCache) fun cache => ?_
  refine .bind (.importHost c .storageFlush) fun flush => ?_
  refine (Makes.request (S := Serves c.registry) fun name => .define (.pure fun p hp f hf => ?_)).mono (fun _ hp => hp) ?_
  · obtain ⟨⟨⟨⟨hp, hslot⟩, hnext⟩, hcache⟩, hflush⟩ := hp
    exact ⟨id, args, cells, rfl, hcells, fun rec owner => ⟨_, _, _, hf, rfl, fun vm =>
      sim_deleteBody (hH p hp) hslot hnext hcache hflush cells.length rec owner vm⟩⟩
  · rintro f p _ ⟨id', args', cells', ht, hcells', hf⟩
    cases ht
    exact ⟨cells', hcells', hf⟩

end MoveCodec.Storage
