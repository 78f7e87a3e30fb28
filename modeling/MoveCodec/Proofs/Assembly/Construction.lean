import MoveCodec.Proofs.Assembly.Link

/-!
# Construction of modules

A module is made by a list of edits that declare imports, claim names for definitions, and give
locals, instructions and exports, in any order. What an edit list declares, and what it writes
into each function, can be read off the list without a draft. `link_of_construction` says that
linking keeps all of it: each function stands under its final number with the type, the locals and
the instructions that the edits gave it, and every call and export names the function it named.
-/
namespace MoveCodec.Assembly

open Wasm List

/-! ## Edits -/

/-- What can be done to a module under construction. -/
inductive DraftEdit where
  | declareImport (home name : String) (type : FuncType)
  | claim (name : String) (type : FuncType)
  | addLocal (f : FuncId) (t : ValType)
  | emit (f : FuncId) (body : List Instr)
  | finish (f : FuncId)
  | addExport (name : String) (kind : UInt8) (index : UInt32)
  | addGlobal (g : Global)
  | setMemory (limits : Limits)
  | addData (offset : UInt32) (bytes : Bytes)

namespace Draft

/-- Changes a definition; there is nothing to change under other numbers. -/
def revise? (d : Draft) (f : FuncId) (change : Entry → Entry) : Option Draft :=
  match d.funcs[f.toNat]? with
  | some (.defined ..) => some (d.modify f change)
  | _ => none

def perform? (d : Draft) : DraftEdit → Option Draft
  | .declareImport home name t => some (d.declareImport home name t).2
  | .claim name t =>
    match d.claim name t with
    | .ok (_, d') => some d'
    | .error _ => some d
  | .addLocal f t => d.revise? f fun e => ((e.addLocal t).map Prod.snd).getD e
  | .emit f body => d.revise? f (Entry.emit body)
  | .finish f => d.revise? f Entry.finish
  | .addExport name kind index => some (d.addExport name kind index)
  | .addGlobal g => some (d.addGlobal g).2
  | .setMemory limits => some { d with memory := some limits }
  | .addData offset bytes => some (d.addData offset bytes)

/-- The number that an edit gives out. -/
def answer? (d : Draft) : DraftEdit → Option FuncId
  | .declareImport home name t => some (d.declareImport home name t).1
  | .claim name t =>
    match d.claim name t with
    | .ok (f, _) => some f
    | .error _ => none
  | _ => none

def construct? (name : String) (edits : List DraftEdit) : Option Draft :=
  edits.foldlM perform? { name }

end Draft

/-! ## What edits say -/

/-- A function as it was declared. -/
inductive Declaration where
  | imported (home name : String) (type : FuncType)
  | defined (name : String) (type : FuncType)
  deriving DecidableEq

namespace Declaration

def type : Declaration → FuncType
  | .imported _ _ t => t
  | .defined _ t => t

def isImport : Declaration → Bool
  | .imported .. => true
  | .defined .. => false

def isFrom (home name : String) : Declaration → Bool
  | .imported h n _ => h == home && n == name
  | .defined .. => false

def isNamed (name : String) : Declaration → Bool
  | .imported .. => false
  | .defined n _ => n == name

end Declaration

namespace DraftEdit

/-- The functions declared so far and after one more edit. Nothing is declared twice. -/
def declare (before : List Declaration) : DraftEdit → List Declaration
  | .declareImport home name t =>
    if before.any (Declaration.isFrom home name) then before else before ++ [.imported home name t]
  | .claim name t => if before.any (Declaration.isNamed name) then before else before ++ [.defined name t]
  | _ => before

/-- The functions that edits declare, in order. -/
def declared (edits : List DraftEdit) : List Declaration := edits.foldl declare []

/-- Which of the functions are imports. -/
def kinds (edits : List DraftEdit) : List Bool := (declared edits).map Declaration.isImport

def localsOf (i : Nat) (edits : List DraftEdit) : List ValType :=
  edits.filterMap fun
    | .addLocal f t => if f.toNat = i then some t else none
    | _ => none

def write (i : Nat) (body : List Instr × Bool) : DraftEdit → List Instr × Bool
  | .emit f is => if f.toNat = i then (body.1 ++ is, body.2) else body
  | .finish f => if f.toNat = i ∧ body.2 = false then (body.1 ++ [.endMark], true) else body
  | _ => body

/-- The body that edits give to a function, and whether they close it. -/
def written (i : Nat) (edits : List DraftEdit) : List Instr × Bool :=
  edits.foldl (write i) ([], false)

def exportsOf (edits : List DraftEdit) : List Export :=
  edits.filterMap fun
    | .addExport name kind index => some ⟨name, kind, index⟩
    | _ => none

/-- The function behind a number that an edit has given out. -/
def Introduces (d : Declaration) : DraftEdit → Prop
  | .declareImport home name _ => d.isFrom home name = true
  | .claim name t => d = .defined name t
  | _ => False

/-- Functions and locals can be numbered with 32 bits. -/
structure Fits (edits : List DraftEdit) : Prop where
  funcs_le : (declared edits).length ≤ UInt32.size
  locals_lt : ∀ i, (localsOf i edits).length < UInt32.size

/-- All functions are closed, and calls and exports use numbers of functions. -/
structure Complete (edits : List DraftEdit) : Prop where
  closed : ∀ i name t, (declared edits)[i]? = some (.defined name t) → (written i edits).2 = true
  calls : ∀ i name t, (declared edits)[i]? = some (.defined name t) →
    ∀ f, Instr.op (.call f) ∈ (written i edits).1 → f.toNat < (declared edits).length
  exports : ∀ e ∈ exportsOf edits, e.kind = Wasm.exportFunc →
    e.index.toNat < (declared edits).length

def number (edits : List DraftEdit) (f : FuncId) : UInt32 :=
  UInt32.ofNat (finalIndex (kinds edits) f.toNat)

/-! ## Drafts record edits -/

variable {edits : List DraftEdit} {a : DraftEdit}

theorem declared_append (edits : List DraftEdit) (a : DraftEdit) :
    declared (edits ++ [a]) = declare (declared edits) a := by
  simp [declared]

theorem localsOf_append (i : Nat) (edits : List DraftEdit) (a : DraftEdit) :
    localsOf i (edits ++ [a]) = localsOf i edits ++ localsOf i [a] := by
  simp [localsOf]

theorem written_append (i : Nat) (edits : List DraftEdit) (a : DraftEdit) :
    written i (edits ++ [a]) = write i (written i edits) a := by
  simp [written]

theorem exportsOf_append (edits : List DraftEdit) (a : DraftEdit) :
    exportsOf (edits ++ [a]) = exportsOf edits ++ exportsOf [a] := by
  simp [exportsOf]

theorem isPrefix_declare (before : List Declaration) (a : DraftEdit) :
    before <+: declare before a := by
  unfold declare
  split
  · split
    · exact prefix_rfl
    · exact prefix_append _ _
  · split
    · exact prefix_rfl
    · exact prefix_append _ _
  · exact prefix_rfl

theorem isPrefix_declared (before after : List DraftEdit) :
    declared before <+: declared (before ++ after) := by
  induction after using List.reverseRecOn with
  | nil => rw [append_nil]
  | append_singleton after a ih =>
    rw [← append_assoc, declared_append]
    exact ih.trans (isPrefix_declare _ a)

def entry (edits : List DraftEdit) (i : Nat) : Declaration → Entry
  | .imported home name t => .imported home name t
  | .defined name t => .defined name t (localsOf i edits) (written i edits).1 (written i edits).2

end DraftEdit

open DraftEdit

/-- A function of a draft as it was declared. -/
def Entry.declaration : Entry → Declaration
  | .imported home name t => .imported home name t
  | .defined name t .. => .defined name t

@[simp] theorem declaration_entry (edits : List DraftEdit) (i : Nat) (decl : Declaration) :
    (DraftEdit.entry edits i decl).declaration = decl := by
  cases decl <;> rfl

theorem declareImport_eq (d : Draft) (home name : String) (t : FuncType) :
    d.declareImport home name t =
      match d.funcs.findIdx? fun e => e.declaration.isFrom home name with
      | some i => (UInt32.ofNat i, d)
      | none => (d.nextId, { d with funcs := d.funcs ++ [.imported home name t] }) := by
  have hsame : (fun e : Entry => e.declaration.isFrom home name) = fun
      | .imported h n _ => h == home && n == name
      | .defined .. => false := by
    funext e
    cases e <;> rfl
  rw [hsame]
  rfl

theorem definition?_eq (d : Draft) (name : String) :
    d.definition? name
      = (d.funcs.findIdx? fun e => e.declaration.isNamed name).map UInt32.ofNat := by
  unfold Draft.definition?
  congr
  funext e
  cases e <;> rfl

/-- A draft holds what the edits so far have said, and they have said nothing about functions
that are not declared yet. -/
structure Records (name : String) (edits : List DraftEdit) (d : Draft) : Prop where
  name_eq : d.name = name
  funcs : d.funcs = (declared edits).mapIdx (entry edits)
  exports : d.exports = exportsOf edits
  fresh : ∀ i, (declared edits).length ≤ i →
    localsOf i edits = [] ∧ written i edits = ([], false)

namespace Records

variable {name : String} {edits : List DraftEdit} {a : DraftEdit} {d d' : Draft} {f : FuncId}

section

variable (h : Records name edits d)

include h

theorem declarations : d.funcs.map Entry.declaration = declared edits := by
  rw [h.funcs]
  refine ext_getElem? fun i => ?_
  simp [Function.comp_def]

theorem length : d.funcs.length = (declared edits).length := by
  rw [h.funcs, length_mapIdx]

theorem any_declaration (p : Declaration → Bool) :
    (d.funcs.findIdx? fun e => p e.declaration).isSome = (declared edits).any p := by
  rw [← h.declarations, any_map, findIdx?_isSome]
  rfl

/-- An edit that can declare functions and changes none. -/
theorem extend {new : List Declaration}
    (hdeclared : declared (edits ++ [a]) = declared edits ++ new)
    (hlocals : ∀ i, localsOf i [a] = []) (hwritten : ∀ i w, write i w a = w)
    (hname : d'.name = d.name) (hfuncs : d'.funcs = d.funcs ++ new.map (entry [] 0))
    (hexports : d'.exports = d.exports ++ exportsOf [a]) : Records name (edits ++ [a]) d' := by
  have hlocals' : ∀ i, localsOf i (edits ++ [a]) = localsOf i edits := fun i => by
    rw [localsOf_append, hlocals, append_nil]
  have hwritten' : ∀ i, written i (edits ++ [a]) = written i edits := fun i => by
    rw [written_append, hwritten]
  have hentry : entry (edits ++ [a]) = entry edits := by
    funext i decl
    cases decl <;> simp [entry, hlocals', hwritten']
  refine ⟨hname.trans h.name_eq, ?_, by rw [hexports, h.exports, exportsOf_append], fun i hi => ?_⟩
  · rw [hfuncs, h.funcs, hdeclared, hentry, mapIdx_append]
    refine congrArg _ (ext_getElem? fun i => ?_)
    obtain ⟨hnoLocals, hnothing⟩ := h.fresh (i + (declared edits).length) (Nat.le_add_left ..)
    rw [getElem?_map, getElem?_mapIdx]
    rcases new[i]? with _ | _ | _
    · rfl
    · rfl
    · simp only [Option.map_some, entry, hnoLocals, hnothing]
      rfl
  · rw [hlocals', hwritten']
    rw [hdeclared, length_append] at hi
    exact h.fresh i (by omega)

theorem keep (hdeclared : declared (edits ++ [a]) = declared edits)
    (hlocals : ∀ i, localsOf i [a] = []) (hwritten : ∀ i w, write i w a = w)
    (hname : d'.name = d.name) (hfuncs : d'.funcs = d.funcs)
    (hexports : d'.exports = d.exports ++ exportsOf [a]) : Records name (edits ++ [a]) d' :=
  h.extend (hdeclared.trans (append_nil _).symm) hlocals hwritten hname
    (hfuncs.trans (append_nil _).symm) hexports

/-- An edit that changes one definition. -/
theorem revise {change : Entry → Entry}
    (hrevise : d.revise? f change = some d') (hdeclared : declared (edits ++ [a]) = declared edits)
    (hexports : exportsOf [a] = [])
    (hlocals : ∀ i, i ≠ f.toNat → localsOf i [a] = [])
    (hwritten : ∀ i w, i ≠ f.toNat → write i w a = w)
    (hchange : ∀ name t, change (entry edits f.toNat (.defined name t))
      = entry (edits ++ [a]) f.toNat (.defined name t)) :
    Records name (edits ++ [a]) d' := by
  unfold Draft.revise? at hrevise
  split at hrevise
  case h_2 => cases hrevise
  case h_1 name t locals body finished hentry =>
    cases hrevise
    have hat : (declared edits)[f.toNat]? = some (.defined name t) := by
      rw [← h.declarations, getElem?_map, hentry]
      rfl
    have hlt : f.toNat < (declared edits).length := (List.getElem?_eq_some_iff.1 hat).1
    refine ⟨h.name_eq, ?_, ?_, fun i hi => ?_⟩
    · refine ext_getElem? fun i => ?_
      rw [Draft.modify, getElem?_modify, h.funcs, getElem?_mapIdx, hdeclared,
        getElem?_mapIdx]
      split
      · rename_i hi
        subst hi
        simp only [hat, Option.map_some]
        exact congrArg some (hchange name t)
      · rename_i hi
        have hne : i ≠ f.toNat := fun heq => hi heq.symm
        cases (declared edits)[i]? with
        | none => rfl
        | some decl =>
          cases decl <;> simp [entry, localsOf_append, hlocals i hne, written_append,
            hwritten i _ hne]
    · exact h.exports.trans (by rw [exportsOf_append, hexports, append_nil])
    · have hne : i ≠ f.toNat := by
        rw [hdeclared] at hi
        omega
      rw [localsOf_append, hlocals i hne, append_nil, written_append, hwritten i _ hne]
      exact h.fresh i (hdeclared ▸ hi)

theorem perform (hd : d.perform? a = some d') :
    Records name (edits ++ [a]) d' := by
  cases a with
  | declareImport home name t =>
    have hany := h.any_declaration (Declaration.isFrom home name)
    have hdeclared := declared_append edits (.declareImport home name t)
    simp only [Draft.perform?, declareImport_eq, Option.some.injEq] at hd
    cases hfind : d.funcs.findIdx? fun e => e.declaration.isFrom home name with
    | some i =>
      rw [hfind] at hd hany
      subst hd
      rw [declare, ← hany, Option.isSome_some, if_pos rfl] at hdeclared
      exact h.keep hdeclared (fun _ => rfl) (fun _ _ => rfl) rfl rfl (by simp [exportsOf])
    | none =>
      rw [hfind] at hd hany
      subst hd
      rw [declare, ← hany, Option.isSome_none, if_neg (by simp)] at hdeclared
      exact h.extend hdeclared (fun _ => rfl) (fun _ _ => rfl) rfl rfl (by simp [exportsOf])
  | claim name t =>
    have hany := h.any_declaration (Declaration.isNamed name)
    have hdeclared := declared_append edits (.claim name t)
    simp only [Draft.perform?, Draft.claim, definition?_eq, Option.isSome_map, hany] at hd
    rw [declare] at hdeclared
    split at hd
    · rename_i hclaim
      split at hclaim
      · cases hclaim
      · rename_i htaken
        cases hclaim
        cases hd
        rw [if_neg htaken] at hdeclared
        exact h.extend hdeclared (fun _ => rfl) (fun _ _ => rfl) rfl rfl (by simp [exportsOf])
    · rename_i hclaim
      split at hclaim
      · rename_i htaken
        cases hd
        rw [if_pos htaken] at hdeclared
        exact h.keep hdeclared (fun _ => rfl) (fun _ _ => rfl) rfl rfl (by simp [exportsOf])
      · cases hclaim
  | addLocal f t =>
    refine h.revise hd (declared_append edits _) rfl (fun i hi => ?_) (fun _ _ _ => rfl)
      fun name u => ?_
    · simp [localsOf, hi.symm]
    · simp [entry, Entry.addLocal, written_append, write, localsOf]
  | emit f body =>
    refine h.revise hd (declared_append edits _) rfl (fun _ _ => rfl) (fun i w hi => ?_)
      fun name u => ?_
    · simp [write, hi.symm]
    · simp [entry, Entry.emit, written_append, write, localsOf]
  | finish f =>
    refine h.revise hd (declared_append edits _) rfl (fun _ _ => rfl) (fun i w hi => ?_)
      fun name u => ?_
    · simp [write, hi.symm]
    · rw [entry, entry, localsOf_append, written_append, write]
      cases hclosed : (written f.toNat edits).2 <;> simp [Entry.finish, hclosed, localsOf]
  | addExport name kind index =>
    cases hd
    exact h.keep (declared_append edits _) (fun _ => rfl) (fun _ _ => rfl) rfl rfl rfl
  | addGlobal _ | setMemory _ | addData _ _ =>
    cases hd
    exact h.keep (declared_append edits _) (fun _ => rfl) (fun _ _ => rfl) rfl rfl
      (by simp [Draft.addGlobal, Draft.addData, exportsOf])

/-- A number that is given out belongs to the function that was asked for. -/
theorem answer (hf : d.answer? a = some f)
    (hsize : (declared (edits ++ [a])).length ≤ UInt32.size) :
    ∃ decl, (declared (edits ++ [a]))[f.toNat]? = some decl ∧ a.Introduces decl := by
  rw [declared_append] at hsize ⊢
  have hnext : ∀ decl, (declared edits ++ [decl]).length ≤ UInt32.size →
      (declared edits ++ [decl])[d.nextId.toNat]? = some decl := by
    intro decl hle
    rw [length_append, length_singleton] at hle
    rw [Draft.nextId, h.length, UInt32.toNat_ofNat_of_lt' (by omega), getElem?_concat_length]
  cases a with
  | declareImport home name t =>
    have hany := h.any_declaration (Declaration.isFrom home name)
    simp only [Draft.answer?, declareImport_eq, Option.some.injEq] at hf
    rw [declare] at hsize ⊢
    cases hfind : d.funcs.findIdx? fun e => e.declaration.isFrom home name with
    | some i =>
      rw [hfind] at hf hany
      rw [← hany, Option.isSome_some, if_pos rfl] at hsize ⊢
      obtain ⟨hlt, hp, -⟩ := findIdx?_eq_some_iff_getElem.1 hfind
      have hi : (UInt32.ofNat i).toNat = i :=
        UInt32.toNat_ofNat_of_lt' (by have := h.length; omega)
      refine ⟨d.funcs[i].declaration, ?_, hp⟩
      rw [← hf, hi, ← h.declarations, getElem?_map, getElem?_eq_getElem hlt]
      rfl
    | none =>
      rw [hfind] at hf hany
      rw [← hany, Option.isSome_none, if_neg (by simp)] at hsize ⊢
      subst hf
      exact ⟨_, hnext _ hsize, by simp [Introduces, Declaration.isFrom]⟩
  | claim name t =>
    have hany := h.any_declaration (Declaration.isNamed name)
    simp only [Draft.answer?, Draft.claim, definition?_eq, Option.isSome_map, hany] at hf
    rw [declare] at hsize ⊢
    split at hf
    · rename_i hclaim
      split at hclaim
      · cases hclaim
      · rename_i htaken
        cases hclaim
        cases hf
        rw [if_neg htaken] at hsize ⊢
        exact ⟨_, hnext _ hsize, rfl⟩
    · cases hf
  | _ => cases hf

end

end Records

theorem records_construct? {name : String} {edits : List DraftEdit} {d : Draft}
    (h : Draft.construct? name edits = some d) : Records name edits d := by
  induction edits using List.reverseRecOn generalizing d with
  | nil =>
    cases h
    exact ⟨rfl, rfl, rfl, fun _ _ => ⟨rfl, rfl⟩⟩
  | append_singleton edits a ih =>
    rw [Draft.construct?, foldlM_append] at h
    obtain ⟨d', hd', h⟩ := Option.bind_eq_some_iff.1 h
    exact (ih hd').perform (by simpa using h)

/-! ## Linking keeps what edits say -/

theorem map_renumber_congr {σ τ : UInt32 → UInt32} {body : List Instr}
    (h : ∀ f, Instr.op (.call f) ∈ body → σ f = τ f) :
    body.map (Instr.renumber σ) = body.map (Instr.renumber τ) := by
  refine map_congr_left fun i hi => ?_
  cases i with
  | op o =>
    cases o with
    | call f => simp [Instr.renumber, Op.renumber, h f hi]
    | _ => rfl
  | _ => rfl

namespace DraftEdit

/-- A module that has what edits say. Functions stand under their final numbers, and the code of a
definition stands where the definitions before it end. -/
structure Linked (name : String) (edits : List DraftEdit) (m : Module (List Instr)) : Prop where
  length_imports : m.imports.length = (kinds edits).count true
  length_code : m.code.length = (kinds edits).count false
  length_funcs : m.funcs.length = (kinds edits).count false
  imports : ∀ i home origin t, (declared edits)[i]? = some (.imported home origin t) →
    ∃ k, m.imports[finalIndex (kinds edits) i]? = some ⟨home, origin, k⟩
  types : ∀ f decl, (declared edits)[UInt32.toNat f]? = some decl →
    m.typeOf? (number edits f) = some decl.type
  code : ∀ i s t, (declared edits)[i]? = some (.defined s t) →
    ∃ fn, m.code[((kinds edits).take i).count false]? = some fn ∧
      fn.body = (written i edits).1.map (Instr.renumber (number edits)) ∧
      fn.locals.flatMap (fun l => List.replicate l.count.toNat l.type) = localsOf i edits
  exports : m.exports = (exportsOf edits).map (Export.renumber (number edits))
  names : ∃ functions, m.names = some ⟨name, functions⟩ ∧ ∀ n s, (n, s) ∈ functions ↔
    ∃ f t, (declared edits)[UInt32.toNat f]? = some (.defined s t) ∧ n = number edits f

end DraftEdit

namespace Records

variable {name : String} {edits : List DraftEdit} {d : Draft} {m : Module (List Instr)}

section

variable (h : Records name edits d)

include h

theorem kinds_eq : d.kinds = kinds edits := by
  rw [kinds, ← h.declarations, map_map]
  refine map_congr_left fun e _ => ?_
  cases e <;> rfl

theorem getElem?_funcs (i : Nat) :
    d.funcs[i]? = ((declared edits)[i]?).map (entry edits i) := by
  rw [h.funcs, getElem?_mapIdx]

theorem number_eq {f : FuncId} (hf : f.toNat < (declared edits).length) :
    d.number f = number edits f := by
  rw [Draft.number_eq (h.length ▸ hf), h.kinds_eq]
  rfl

/-- A module can be linked just when the edits have completed it. -/
theorem exists_link : (∃ m, d.link = .ok m) ↔ Complete edits := by
  rw [exists_link_eq_ok, h.length, h.exports]
  constructor
  · rintro ⟨hfuncs, hexports⟩
    have hentry : ∀ i name t, (declared edits)[i]? = some (.defined name t) →
        (entry edits i (.defined name t)).Linkable (declared edits).length := by
      intro i name t hat
      refine hfuncs _ (mem_iff_getElem?.2 ⟨i, ?_⟩)
      rw [h.getElem?_funcs, hat]
      rfl
    exact ⟨fun i name t hat => (hentry i name t hat).1, fun i name t hat => (hentry i name t hat).2,
      hexports⟩
  · intro hcomplete
    refine ⟨fun e he => ?_, hcomplete.exports⟩
    obtain ⟨i, hi⟩ := mem_iff_getElem?.1 he
    rw [h.getElem?_funcs] at hi
    obtain ⟨decl, hat, rfl⟩ := Option.map_eq_some_iff.1 hi
    cases decl with
    | imported home name t => trivial
    | defined name t => exact ⟨hcomplete.closed i name t hat, hcomplete.calls i name t hat⟩

theorem mem_linkNames_iff (hsize : d.funcs.length ≤ UInt32.size)
    (n : UInt32) (s : String) :
    (n, s) ∈ Draft.linkNames (Draft.indices d.funcs) d.funcs ↔
      ∃ f t, (declared edits)[UInt32.toNat f]? = some (.defined s t) ∧ n = number edits f := by
  rw [mem_linkNames]
  constructor
  · rintro ⟨i, e, he, himport, rfl, rfl⟩
    have hi : (UInt32.ofNat i).toNat = i :=
      UInt32.toNat_ofNat_of_lt' ((List.getElem?_eq_some_iff.1 he).1.trans_le hsize)
    rw [h.getElem?_funcs] at he
    obtain ⟨decl, hat, rfl⟩ := Option.map_eq_some_iff.1 he
    cases decl with
    | imported home name t => cases himport
    | defined name t =>
      refine ⟨UInt32.ofNat i, t, by rw [hi, hat]; rfl, ?_⟩
      rw [number, hi, h.kinds_eq]
  · rintro ⟨f, t, hat, rfl⟩
    refine ⟨f.toNat, entry edits f.toNat (.defined s t), ?_, rfl, rfl, ?_⟩
    · rw [h.getElem?_funcs, hat]
      rfl
    · rw [number, h.kinds_eq]

theorem linked (hfits : DraftEdit.Fits edits) (hlink : d.link = .ok m) :
    Linked name edits m := by
  have hcomplete := h.exists_link.1 ⟨m, hlink⟩
  have hsize : d.funcs.length ≤ UInt32.size := h.length ▸ hfits.funcs_le
  have hlength : ∀ b, (ofKind b d.funcs).length = (kinds edits).count b := fun b => by
    rw [d.length_ofKind, h.kinds_eq]
  have hentry : ∀ {i decl}, (declared edits)[i]? = some decl →
      d.funcs[i]? = some (entry edits i decl) := fun hat => by
    rw [h.getElem?_funcs, hat, Option.map_some]
  obtain ⟨-, rfl⟩ := link_eq_ok.1 hlink
  refine ⟨?_, ?_, ?_, ?_, ?_, ?_, ?_, ?_⟩
  · rw [← (forall₂_imports hsize).length_eq, hlength]
  · exact (length_map _).trans (hlength false)
  · rw [← (forall₂_funcs hsize).length_eq, hlength]
  · intro i home origin t hat
    obtain ⟨k, hk, heq, -⟩ := exists_getElem?_of_forall₂ (forall₂_imports hsize)
      (Draft.getElem?_ofKind (hentry hat))
    have hkind : (kinds edits)[i]? = some true := by simp [kinds, hat, Declaration.isImport]
    rw [finalIndex_import hkind, ← h.kinds_eq]
    exact ⟨k.type, hk.trans (congrArg some heq)⟩
  · intro f decl hat
    rw [← h.number_eq (List.getElem?_eq_some_iff.1 hat).1, typeOf?_linked hsize (hentry hat)]
    cases decl <;> rfl
  · intro i s t hat
    have hfound := Draft.getElem?_ofKind (hentry hat)
    rw [h.kinds_eq] at hfound
    refine ⟨_, (getElem?_map ..).trans (congrArg _ hfound), ?_,
      flatMap_localRuns (hfits.locals_lt i)⟩
    exact map_renumber_congr fun f hf => h.number_eq (hcomplete.calls i s t hat f hf)
  · change d.exports.map _ = _
    rw [h.exports]
    refine map_congr_left fun e he => ?_
    unfold Export.renumber
    split
    · rename_i hkind
      rw [h.number_eq (hcomplete.exports e he hkind)]
    · rfl
  · exact ⟨_, h.name_eq ▸ rfl, fun n s => h.mem_linkNames_iff hsize n s⟩

end

end Records

/-- Numbers that put imports first, in order, and definitions after them, in order. -/
structure ImportsFirst (imports : List Bool) (σ : Nat → Nat) : Prop where
  bijOn : Set.BijOn σ (Set.Iio imports.length) (Set.Iio imports.length)
  import_lt : ∀ i j, imports[i]? = some true → imports[j]? = some false → σ i < σ j
  lt_of_lt : ∀ b i j, imports[i]? = some b → imports[j]? = some b → i < j → σ i < σ j

/-- A module made by edits in any order has under the final numbers all that the edits say. It can
be linked unless a function is not closed, or a call or an export has an unknown number; and a
number that was given out belongs to the function it was given out for. -/
theorem link_of_construction {name : String} {edits : List DraftEdit} {d : Draft}
    (hd : Draft.construct? name edits = some d) (hfits : DraftEdit.Fits edits) :
    ImportsFirst (kinds edits) (finalIndex (kinds edits)) ∧
      (∀ before a after d₀ f, edits = before ++ a :: after →
        Draft.construct? name before = some d₀ → d₀.answer? a = some f →
        ∃ decl, (declared edits)[f.toNat]? = some decl ∧ a.Introduces decl) ∧
      ((∃ m, d.link = .ok m) ↔ Complete edits) ∧
      ∀ m, d.link = .ok m → Linked name edits m := by
  have hrecords := records_construct? hd
  refine ⟨⟨finalIndex_bijOn _, fun _ _ => finalIndex_import_lt, fun _ _ _ => finalIndex_lt_of_lt⟩,
    ?_, hrecords.exists_link, fun m => hrecords.linked hfits⟩
  rintro before a after d₀ f rfl hbefore hf
  have hinit : declared (before ++ [a]) <+: declared (before ++ a :: after) :=
    append_cons before a after ▸ isPrefix_declared (before ++ [a]) after
  obtain ⟨decl, hat, hdecl⟩ := (records_construct? hbefore).answer hf
    (hinit.length_le.trans hfits.funcs_le)
  refine ⟨decl, ?_, hdecl⟩
  obtain ⟨hlt, rfl⟩ := List.getElem?_eq_some_iff.1 hat
  exact prefix_iff_getElem?.1 hinit _ hlt

/-- A definition that calls an import and a definition that come after it. -/
def forwardCalls : List DraftEdit :=
  [.claim "main" ⟨[.i32], []⟩, .declareImport "env" "log" ⟨[.i32], []⟩, .addLocal 0 .i64,
    .addLocal 0 .i64, .addLocal 0 .i32, .emit 0 [.op (.localGet 0), .op (.call 1)],
    .claim "next" ⟨[], []⟩, .addExport "main" Wasm.exportFunc 0, .emit 0 [.op (.call 2)],
    .finish 2, .finish 0]

theorem linked_forwardCalls :
    ∃ d m, Draft.construct? "sample" forwardCalls = some d ∧ d.link = .ok m ∧
      Linked "sample" forwardCalls m := by
  have hfits : DraftEdit.Fits forwardCalls :=
    ⟨by decide, fun i => (length_filterMap_le _ _).trans_lt (by decide)⟩
  exact ⟨_, _, rfl, rfl, (link_of_construction rfl hfits).2.2.2 _ rfl⟩

end MoveCodec.Assembly
