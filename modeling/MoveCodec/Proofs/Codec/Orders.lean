import MoveCodec.Proofs.Package.Generation

/-!
# Orders

Orders are what the codec can be asked for. They are given one after another to a module that starts
with nothing but its allocator, and any of them may fail. A failure says what is wrong with the
order and leaves the module as it was, but for functions that are complete. So the module can be
encoded at any time, and whether an order is fulfilled does not depend on the orders before it.
-/
namespace MoveCodec.Codec

open Wasm Assembly Machine Prelude List

inductive Order where
  | pack (t : MoveType)
  | unpack (t : MoveType)
  | packValues (ts : List MoveType)
  | unpackValues (ts : List MoveType)
  | revert (d : StructDef)
  | raise (d : StructDef)
  | emit (d : StructDef)
  | save (id : DefId) (args : List MoveType)
  | read (id : DefId) (args : List MoveType)
  | load (id : DefId) (args : List MoveType)
  | delete (id : DefId) (args : List MoveType)

namespace Order

/-- The generator of the function that is ordered. -/
def make (c : Context) : Order → Generate FuncId
  | .pack t => Codec.pack c t
  | .unpack t => Codec.unpack c t
  | .packValues ts => Codec.packValues c ts
  | .unpackValues ts => Codec.unpackValues c ts
  | .revert d => Codec.revert c d
  | .raise d => Codec.raise c d
  | .emit d => Codec.emit c d
  | .save id args => Storage.save c id args
  | .read id args => Storage.read c id args
  | .load id args => Storage.load c id args
  | .delete id args => Storage.delete c id args

def requests (r : Registry) : Order → List Request
  | .pack t => packRequests r t
  | .unpack t => unpackRequests r t
  | .packValues ts => packValuesRequests r ts
  | .unpackValues ts => unpackValuesRequests r ts
  | .revert d | .raise d => revertRequests r d
  | .emit d => emitRequests r d
  | .save id args | .read id args | .load id args | .delete id args =>
    Storage.objectRequests r id args

def Sensible (c : Context) : Order → Prop
  | .pack t => t.isConcrete = true ∧ (c.registry.shape t).Classed c.registry
  | .unpack t => t.isConcrete = true ∧ Decodable c.registry t
  | .packValues ts => (∀ t ∈ ts, t.isConcrete = true) ∧ ∀ t ∈ ts, Encodable c.registry t
  | .unpackValues ts => (∀ t ∈ ts, t.isConcrete = true) ∧ ∀ t ∈ ts, Acceptable c.registry t
  | .revert d | .raise d => Revertible c d
  | .emit d => Emittable c d
  | .save id args | .read id args | .load id args | .delete id args =>
    (∀ a ∈ args, a.isConcrete = true) ∧ Storable c.registry (.struct id args)

end Order

/-! ## Types that are not concrete -/

section

variable {c : Context} {N J O D : Set Request} {S : Setting} {P : Assembly → Prop}
  {Q : FuncId → Assembly → Prop}

theorem declines_pack {t : MoveType} (ht : t.isConcrete = false) :
    Decides S P False (pack c t) Q := by
  obtain ⟨gen, hgen⟩ := packShape_eq c.registry (c.registry.shape t)
  rw [pack, hgen]
  refine .lift_false (Shape.follows_shape t).reasoned_isDynamic fun b _ => ?_
  exact .request_generic (x := ⟨"pack", [(c.registry.shape t).type]⟩) (mem_singleton_self _)
    (by rwa [Shape.type_shape])

theorem declines_unpack {t : MoveType} (ht : t.isConcrete = false) :
    Decides S P False (unpack c t) Q := by
  obtain ⟨gen, hgen⟩ := unpackShape_eq c.registry (c.registry.shape t)
  rw [unpack, hgen]
  refine .lift_false (Shape.follows_shape t).reasoned_isDynamic fun b _ =>
    .lift_false (Shape.reasoned_checkDecodable _) fun _ _ => ?_
  exact .request_generic (x := ⟨"unpack", [(c.registry.shape t).type]⟩) (mem_singleton_self _)
    (by rwa [Shape.type_shape])

theorem declines_stored {id : DefId} {args : List MoveType} {k : Storage.Stored → Generate FuncId}
    (h : ∀ d cells fields,
      Decides S P False (k ⟨.struct id args, .struct d args fields, cells⟩) Q) :
    Decides S P False (Storage.stored c id args >>= k) Q := by
  simp only [Storage.stored, bind_assoc, pure_bind]
  exact .lift_false (Registry.reasoned_requireObject id args) fun d _ =>
    .lift_false (Registry.reasoned_storageLayout id args) fun cells _ =>
      .lift_false (Registry.reasoned_fieldShapes id args) fun fields _ => h d cells fields

variable {id : DefId} {args : List MoveType} (hargs : ∃ a ∈ args, a.isConcrete = false)

include hargs

theorem isConcrete_struct_eq_false (id : DefId) : (MoveType.struct id args).isConcrete = false := by
  rw [Bool.eq_false_iff, ne_eq, MoveType.isConcrete_struct]
  obtain ⟨a, ha, hgeneric⟩ := hargs
  exact fun h => by simp [h a ha] at hgeneric

theorem declines_objectRequest (kind : String) {gen : String → Generate FuncId} :
    Decides S P False (request kind [.struct id args] gen) Q :=
  .request_generic (x := ⟨kind, [.struct id args]⟩) (mem_singleton_self _)
    (isConcrete_struct_eq_false hargs id)

variable (hfree : Free N O)

include hfree

theorem declines_fieldWriter (d : StructDef) (fields : FieldShapes) :
    Verdict (judging c N J) O D False
      (Storage.fieldWriter c (.struct d args fields)) := by
  rw [Storage.fieldWriter]
  exact .lift_false fields.reasoned_layout fun _ _ =>
    .andThen (Storage.succeeds_stepSlot hfree) fun _ => .andThen (Storage.succeeds_importHost _)
      fun _ => declines_objectRequest hargs _

theorem declines_fieldReader (d : StructDef) (fields : FieldShapes) :
    Verdict (judging c N J) O D False
      (Storage.fieldReader c (.struct d args fields)) := by
  rw [Storage.fieldReader]
  exact .lift_false fields.reasoned_layout fun _ _ =>
    .andThen (Storage.succeeds_stepSlot hfree) fun _ => .andThen (Storage.succeeds_importHost _)
      fun _ => declines_objectRequest hargs _

theorem declines_save : Verdict (judging c N J) O D False
    (Storage.save c id args) :=
  declines_stored fun d _ fields => .andThen (Storage.succeeds_deriveSlot hfree) fun _ =>
    .andFinally (declines_fieldWriter hargs hfree d fields) fun h => h.elim

theorem declines_read : Verdict (judging c N J) O D False
    (Storage.read c id args) :=
  declines_stored fun d _ fields => .andThen (Storage.succeeds_deriveSlot hfree) fun _ =>
    .andThen (Storage.succeeds_sameWord hfree) fun _ =>
      .andFinally (declines_fieldReader hargs hfree d fields) fun h => h.elim

theorem declines_load : Verdict (judging c N J) O D False
    (Storage.load c id args) :=
  declines_stored fun d _ fields => .andThen (Storage.succeeds_locate hfree) fun _ =>
    .andFinally (declines_fieldReader hargs hfree d fields) fun h => h.elim

theorem declines_delete : Verdict (judging c N J) O D False
    (Storage.delete c id args) :=
  declines_stored fun _ _ _ => .andThen (Storage.succeeds_deriveSlot hfree) fun _ =>
    .andThen (Storage.succeeds_stepSlot hfree) fun _ => .andThen (Storage.succeeds_importHost _)
      fun _ => .andThen (Storage.succeeds_importHost _) fun _ => declines_objectRequest hargs _

end

/-! ## One order -/

namespace Order

variable {c : Context} {N : Set Request}

/-- Every order has a condition of its own, whatever the module holds already. -/
theorem decides_make (hr : c.registry.Made) (hroutines : ∀ x ∈ routines, x ∈ N) (o : Order)
    (hlisted : ∀ x ∈ o.requests c.registry, x ∈ N) :
    Verdict (judging c N Set.univ) ∅ ∅ (o.Sensible c) (o.make c) := by
  have hq : Quiet N ∅ := ⟨hroutines, fun x hx => absurd hx (Set.notMem_empty x)⟩
  have hobject {id : DefId} {args : List MoveType} {g : Generate FuncId}
      (hstored : (∀ a ∈ args, a.isConcrete = true) →
        Verdict (judging c N Set.univ) ∅ ∅
          (Storable c.registry (.struct id args)) g)
      (hgeneric : (∃ a ∈ args, a.isConcrete = false) →
        Verdict (judging c N Set.univ) ∅ ∅ False g) :
      Verdict (judging c N Set.univ) ∅ ∅
        ((∀ a ∈ args, a.isConcrete = true) ∧ Storable c.registry (.struct id args)) g := by
    by_cases hargs : ∀ a ∈ args, a.isConcrete = true
    · exact (hstored hargs).congr (and_iff_right hargs).symm
    · refine (hgeneric ?_).congr (iff_of_false not_false fun h => hargs h.1)
      simpa using hargs
  cases o with
  | pack t =>
    cases ht : t.isConcrete with
    | true =>
      exact (decides_pack hr (allows_pack hq ht hlisted)).congr (by simp [Sensible, ht])
    | false => exact (declines_pack ht).congr (by simp [Sensible, ht])
  | unpack t =>
    cases ht : t.isConcrete with
    | true =>
      exact (decides_unpack hr (allows_unpack hq ht hlisted)).congr (by simp [Sensible, ht])
    | false => exact (declines_unpack ht).congr (by simp [Sensible, ht])
  | packValues ts => exact decides_packValues hr hroutines hlisted (.inl trivial)
  | unpackValues ts => exact decides_unpackValues hr hroutines hlisted (.inl trivial)
  | revert d => exact decides_revert hr hroutines hlisted (.inl trivial)
  | raise d => exact decides_raise hr hroutines hlisted (.inl trivial)
  | emit d => exact decides_emit hr hroutines hlisted (.inl trivial)
  | save id args =>
    exact hobject (fun h => Storage.decides_save hr hq h hlisted) fun h => declines_save h hq.free
  | read id args =>
    exact hobject (fun h => Storage.decides_read hr hq h hlisted) fun h => declines_read h hq.free
  | load id args =>
    exact hobject (fun h => Storage.decides_load hr hq h hlisted) fun h => declines_load h hq.free
  | delete id args =>
    exact hobject (fun h => Storage.decides_delete hq h hlisted) fun h => declines_delete h hq.free

/-- What is ordered has a type. -/
theorem typed_make (c : Context) (o : Order) :
    ∃ t, Makes typing Allocates (o.make c) (IsTyped t) := by
  have hH : ∀ q, Allocates q → Allocates q := fun _ h => h
  cases o with
  | pack t => exact ⟨_, typed_pack hH t⟩
  | unpack t => exact ⟨_, typed_unpack hH t⟩
  | packValues ts => exact ⟨_, typed_packValues hH ts⟩
  | unpackValues ts => exact ⟨_, typed_unpackValues hH ts⟩
  | revert d => exact ⟨_, typed_revert hH d⟩
  | raise d => exact ⟨_, typed_raise hH d⟩
  | emit d => exact ⟨_, typed_emit hH d⟩
  | save id args => exact ⟨_, Storage.typed_save hH id args⟩
  | read id args => exact ⟨_, Storage.typed_read hH id args⟩
  | load id args => exact ⟨_, Storage.typed_load hH id args⟩
  | delete id args => exact ⟨_, Storage.typed_delete hH id args⟩

end Order

/-! ## Orders one after another -/

/-- The module after an order, fulfilled or not. -/
def serve (c : Context) (a : Assembly) (o : Order) : Assembly :=
  match (o.make c).run a with
  | .ok _ b => b
  | .error _ b => b

def serveAll (c : Context) (module : String) (os : List Order) : Assembly :=
  os.foldl (serve c) (start module c.options)

def allRequests (r : Registry) (os : List Order) : List Request :=
  routines ++ os.flatMap (Order.requests r)

/-- Requests that differ have different symbols, and everything can be numbered: the functions, the
locals of each, and the variants of enums. -/
structure Manageable (c : Context) (os : List Order) : Prop where
  symbol_inj : ∀ x ∈ allRequests c.registry os, ∀ y ∈ allRequests c.registry os,
    x.symbol = y.symbol → x = y
  room : (allRequests c.registry os).dedup.length + (1 + HostFunc.all.length) ≤ UInt32.size
  args_le : ∀ x ∈ allRequests c.registry os, 4 * x.args.length + 16 ≤ UInt32.size
  sized : Sized c.registry

/-- No function that is requested takes the allocator's name. -/
theorem symbol_ne_allocate {x : Request} (h : x.kind ≠ "allocate") : x.symbol ≠ "allocate" := by
  rw [Request.symbol, symbol]
  split
  · exact h
  · intro hname
    have hmem : '_' ∈ "allocate".toList := by
      rw [← hname]
      simp
    revert hmem
    decide

theorem kind_ne_allocate {r : Registry} {os : List Order} :
    ∀ x ∈ allRequests r os, x.kind ≠ "allocate" := by
  have hpack (t : MoveType) : ∀ x ∈ packRequests r t, x.kind ≠ "allocate" := by
    simp [packRequests]
  have hunpack (t : MoveType) : ∀ x ∈ unpackRequests r t, x.kind ≠ "allocate" := by
    simp [unpackRequests]
  have hobject (id : DefId) (args : List MoveType) :
      ∀ x ∈ Storage.objectRequests r id args, x.kind ≠ "allocate" := by
    simp only [Storage.objectRequests, mem_append, mem_flatMap]
    rintro x (hx | ⟨u, -, hx⟩)
    · revert x
      simp
    · revert x
      simp
  have hpayload (d : StructDef) : ∀ x ∈ payloadRequests r d, x.kind ≠ "allocate" := by
    unfold payloadRequests
    split
    · simp only [mem_flatMap]
      rintro x ⟨f, -, hx⟩
      exact hpack _ x hx
    · nofun
  simp only [allRequests, mem_append, mem_flatMap]
  rintro x (hx | ⟨o, -, hx⟩)
  · revert x
    decide
  · cases o with
    | pack t => exact hpack t x hx
    | unpack t => exact hunpack t x hx
    | packValues ts =>
      simp only [Order.requests, packValuesRequests, mem_cons, mem_flatMap] at hx
      obtain rfl | ⟨t, -, hx⟩ := hx
      · simp
      · exact hpack _ x hx
    | unpackValues ts =>
      simp only [Order.requests, unpackValuesRequests, mem_cons, mem_flatMap] at hx
      obtain rfl | ⟨t, -, hx⟩ := hx
      · simp
      · unfold sourceRequests at hx
        split at hx
        · split at hx
          · exact hobject _ _ x hx
          · exact hunpack _ x hx
        · exact hunpack _ x hx
    | revert d | raise d =>
      simp only [Order.requests, revertRequests, mem_cons] at hx
      obtain rfl | rfl | hx := hx
      · simp
      · simp
      · exact hpayload d x hx
    | emit d =>
      simp only [Order.requests, emitRequests, mem_cons] at hx
      obtain rfl | hx := hx
      · simp
      · exact hpayload d x hx
    | save id args | read id args | load id args | delete id args => exact hobject id args x hx

abbrev serving (c : Context) (os : List Order) : Setting :=
  judging c {x | x ∈ allRequests c.registry os} Set.univ

section

variable {c : Context} {os : List Order} {o : Order} {a : Assembly} {module : String}

theorem Manageable.distinct (h : Manageable c os) : (serving c os).Distinct where
  symbol_inj x hx y hy := h.symbol_inj x hx y hy
  symbol_ne x hx := symbol_ne_allocate (kind_ne_allocate x hx)
  room := by
    have hset : {x | x ∈ allRequests c.registry os} =
        ((allRequests c.registry os).toFinset : Set Request) := by
      ext x
      simp
    change Set.encard {x | x ∈ allRequests c.registry os} + _ ≤ _
    rw [hset, Set.encard_coe_eq_coe_finsetCard, card_toFinset]
    exact_mod_cast h.room
  sized := ⟨h.sized, h.args_le⟩

theorem decides_serving (hr : c.registry.Made) (ho : o ∈ os) :
    Verdict (serving c os) ∅ ∅ (o.Sensible c) (o.make c) :=
  o.decides_make hr (fun _ hx => mem_append_left _ hx)
    fun _ hx => mem_append_right _ (mem_flatMap.2 ⟨o, ho, hx⟩)

/-- All functions are complete and typed, and orders can be served. -/
structure Usable (c : Context) (os : List Order) (a : Assembly) : Prop where
  underway : Underway (serving c os) ∅ ∅ a
  exporting : Exporting a

theorem usable_start (c : Context) (os : List Order) (module : String) :
    Usable c os (start module c.options) :=
  ⟨underway_start module, exporting_start module c.options⟩

/-- An order leaves the module usable, whether it is fulfilled or not. -/
theorem Usable.serve (h : Usable c os a) (hr : c.registry.Made) (hfit : Manageable c os)
    (ho : o ∈ os) : Usable c os (serve c a o) := by
  obtain ⟨t, ht⟩ := o.typed_make c
  have hends := ht a h.exporting.sound h.exporting.allocates
  have hdecides := decides_serving hr ho
  unfold Codec.serve
  cases hrun : (o.make c).run a with
  | ok f b =>
    rw [hrun] at hends
    obtain ⟨-, hlong, hready⟩ := hdecides.of_run h.underway hrun
    exact ⟨hready, h.exporting.extend hends.1 hends.2.1 hlong.exports_eq⟩
  | error e b =>
    rw [hrun] at hends
    obtain ⟨-, -, hlong, hready⟩ := hdecides.of_error hfit.distinct h.underway hrun
    exact ⟨hready, h.exporting.extend hends.1 hends.2 hlong.exports_eq⟩

theorem Usable.foldl (h : Usable c os a) (hr : c.registry.Made) (hfit : Manageable c os)
    {rest : List Order} (hrest : ∀ o ∈ rest, o ∈ os) :
    Usable c os (rest.foldl (Codec.serve c) a) := by
  induction rest generalizing a with
  | nil => exact h
  | cons o rest ih =>
    obtain ⟨ho, hrest⟩ := forall_mem_cons.1 hrest
    exact ih (h.serve hr hfit ho) hrest

theorem Usable.isDone (h : Usable c os a) (hfit : Manageable c os) :
    ∀ e ∈ a.draft.funcs, e.isDone = true := by
  intro e he
  rcases h.underway.coded hfit.distinct e he with (himport | ⟨name, t, locals, code, rfl⟩) | ⟨x, hx, -⟩
  · cases e with
    | imported => rfl
    | defined => cases himport
  · rfl
  · exact absurd hx (Set.notMem_empty x)

/-- In a module that orders were given to, fulfilled or not, every function is complete, and the
module can be encoded. Another order does not fail through a fault of the library, and it is
fulfilled if it would be in a new module. -/
theorem serve_after_any_orders (c : Context) (module : String) (os : List Order) (o : Order)
    (hr : c.registry.Made) (hfit : Manageable c (o :: os)) :
    (∀ e ∈ (serveAll c module os).draft.funcs, e.isDone = true) ∧
    (serveAll c module os).draft.checkNumbers = .ok () ∧
    (∃ bytes, (serveAll c module os).draft.encode = .ok bytes) ∧
    (∀ e b, (o.make c).run (serveAll c module os) = .error e b → e.isInternal = false) ∧
    ((∃ f b, (o.make c).run (serveAll c module os) = .ok f b) ↔
      ∃ f b, (o.make c).run (start module c.options) = .ok f b) := by
  have hstart := usable_start c (o :: os) module
  have husable : Usable c (o :: os) (serveAll c module os) :=
    hstart.foldl hr hfit fun _ ho => mem_cons_of_mem _ ho
  have hdecides := decides_serving hr (mem_cons_self (a := o) (l := os))
  refine ⟨husable.isDone hfit, husable.underway.checkNumbers_eq hfit.distinct, ?_,
    fun e b hrun => ?_, ?_⟩
  · obtain ⟨m, hm⟩ := husable.exporting.exists_link husable.underway hfit.distinct
    exact ⟨m.encode, by rw [Draft.encode, hm]; rfl⟩
  · exact (hdecides.of_error hfit.distinct husable.underway hrun).2.reasoned
  · rw [hdecides.exists_run_iff hfit.distinct husable.underway,
      hdecides.exists_run_iff hfit.distinct hstart.underway]

end

/-! ## A registry with an object -/

namespace Purse

def identifier : StructDef where
  id := Framework.identifier
  name := "ID"
  fields := [⟨"bytes", .address⟩]
  tag := .id

def uniqueIdentifier : StructDef where
  id := Framework.uniqueIdentifier
  name := "UID"
  fields := [⟨"id", identifier.type⟩]
  tag := .uid

def home : ModuleId := ⟨Vector.replicate 32 7, "purse"⟩

def kind : EnumDef where
  id := ⟨home, 0⟩
  name := "Kind"
  variants := [⟨"Leather", []⟩, ⟨"Velvet", []⟩]

/-- A plain struct that a purse contains. -/
def mark : StructDef where
  id := ⟨home, 1⟩
  name := "Mark"
  fields := [⟨"kind", kind.type⟩, ⟨"maker", .address⟩]

/-- An object. -/
def purse : StructDef where
  id := ⟨home, 2⟩
  name := "Purse"
  abilities := { key := true }
  fields := [⟨"id", uniqueIdentifier.type⟩, ⟨"coins", .int .w64⟩, ⟨"mark", mark.type⟩,
    ⟨"limit", .int .w128⟩]

/-- An error. -/
def overdrawn : StructDef where
  id := ⟨home, 3⟩
  name := "Overdrawn"
  role := .error
  fields := [⟨"missing", .int .w64⟩, ⟨"marks", .vector mark.type⟩]

def registry : Registry where
  structs := [identifier, uniqueIdentifier, mark, purse, overdrawn]
  enums := [kind]

theorem made_registry : registry.Made :=
  Registry.made_edited .empty [.struct identifier 0, .struct uniqueIdentifier 0, .struct mark 0,
    .struct purse 0, .struct overdrawn 0, .enum kind]

theorem sized_registry : Sized registry where
  variants := by decide
  fields := by decide

def orders : List Order :=
  [.pack mark.type, .pack (.vector .signer), .save mark.id [], .unpackValues [purse.type, .param 0],
   .revert purse]

def fulfilled (o : Order) : Bool :=
  match (o.make ⟨registry, {}⟩).run (start "purse" {}) with
  | .ok _ _ => true
  | .error _ _ => false

theorem manageable_orders : Manageable ⟨registry, {}⟩ (.delete purse.id [] :: orders) where
  symbol_inj := by
    have hnodup : ((allRequests registry (.delete purse.id [] :: orders)).dedup.map
        Request.symbol).Nodup := by
      decide +kernel
    intro x hx y hy
    exact inj_on_of_nodup_map hnodup (mem_dedup.2 hx) (mem_dedup.2 hy)
  room := by decide
  args_le := by decide
  sized := sized_registry

theorem serve_after_any_orders_purse :
    orders.map fulfilled = [true, false, false, false, false] ∧
    (∃ bytes, (serveAll ⟨registry, {}⟩ "purse" orders).draft.encode = .ok bytes) ∧
    ∃ f b, ((Order.delete purse.id []).make ⟨registry, {}⟩).run
      (serveAll ⟨registry, {}⟩ "purse" orders) = .ok f b := by
  obtain ⟨-, -, hencode, -, hlast⟩ := serve_after_any_orders ⟨registry, {}⟩ "purse" orders
    (.delete purse.id []) made_registry manageable_orders
  refine ⟨by decide +kernel, hencode, hlast.2 ?_⟩
  have hfulfilled : fulfilled (.delete purse.id []) = true := by decide +kernel
  unfold fulfilled at hfulfilled
  split at hfulfilled
  · rename_i f b hrun
    exact ⟨f, b, hrun⟩
  · cases hfulfilled

end Purse

end MoveCodec.Codec
