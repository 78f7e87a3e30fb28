import MoveCodec.Proofs.Wire.Acceptance

/-!
# Canonical names can be read back

A name is read character by character with a stack of the tuples that are open. Reading the
canonical name of a type gives back its tree of words, strings, arrays and tuples, and nothing else
about a type decides whether it is dynamic and how wide its head is. So types with one canonical
name look the same on the wire, also if their definitions come from different registries.
-/
namespace MoveCodec

open List

variable {name : String} {names : List String} {s : Shape} {heads : List UInt32}

namespace Wire

/-! ## Trees -/

/-- What stands on the wire for a type. -/
inductive Tree where
  | word
  | string
  | array (elem : Tree)
  | tuple (parts : List Tree)

mutual

def Tree.isDynamic : Tree → Bool
  | .word => false
  | .string => true
  | .array _ => true
  | .tuple parts => anyDynamic parts

def anyDynamic : List Tree → Bool
  | [] => false
  | t :: parts => t.isDynamic || anyDynamic parts

end

mutual

def Tree.staticSize : Tree → UInt32
  | .tuple parts => partsSize parts
  | _ => wordSize

def partsSize : List Tree → UInt32
  | [] => 0
  | t :: parts => t.staticSize + partsSize parts

end

/-- Bytes among the heads of the surrounding tuple. -/
def Tree.headSize (t : Tree) : UInt32 := if t.isDynamic then wordSize else t.staticSize

/-! ## Reading -/

/-- What was read last. -/
inductive Recent where
  | nothing
  | letters (cs : List Char)
  | whole (t : Tree)
  /-- An opening bracket after a tree. -/
  | bracket (t : Tree)

/-- The tree that was read last, if it can end here. -/
def Recent.tree? : Recent → Option Tree
  | .letters cs => some (if cs = "string".toList then .string else .word)
  | .whole t => some t
  | .nothing => none
  | .bracket _ => none

/-- How far a name was read. -/
structure Reading where
  /-- The parts of the tuples that are open, the innermost tuple first. -/
  opened : List (List Tree)
  recent : Recent

def Reading.step (s : Reading) (c : Char) : Option Reading :=
  if c = '(' then
    match s.recent with
    | .nothing => some ⟨[] :: s.opened, .nothing⟩
    | _ => none
  else if c = ',' then
    match s.opened, s.recent.tree? with
    | parts :: opened, some t => some ⟨(parts ++ [t]) :: opened, .nothing⟩
    | _, _ => none
  else if c = ')' then
    match s.opened, s.recent, s.recent.tree? with
    | parts :: opened, _, some t => some ⟨opened, .whole (.tuple (parts ++ [t]))⟩
    | [] :: opened, .nothing, none => some ⟨opened, .whole (.tuple [])⟩
    | _, _, _ => none
  else if c = '[' then s.recent.tree?.map fun t => ⟨s.opened, .bracket t⟩
  else if c = ']' then
    match s.recent with
    | .bracket t => some ⟨s.opened, .whole (.array t)⟩
    | _ => none
  else
    match s.recent with
    | .nothing => some ⟨s.opened, .letters [c]⟩
    | .letters cs => some ⟨s.opened, .letters (cs ++ [c])⟩
    | _ => none

def readName (name : List Char) : Option Tree :=
  match name.foldlM Reading.step ⟨[], .nothing⟩ with
  | some ⟨[], recent⟩ => recent.tree?
  | _ => none

/-- Reading the name gives the tree, whatever is open. -/
def Spells (name : String) (t : Tree) : Prop :=
  ∀ opened, ∃ recent : Recent, recent.tree? = some t ∧
    name.toList.foldlM Reading.step ⟨opened, .nothing⟩ = some ⟨opened, recent⟩

theorem Spells.readName {t : Tree} (h : Spells name t) :
    readName name.toList = some t := by
  obtain ⟨recent, htree, hread⟩ := h []
  rw [Wire.readName, hread]
  exact htree

/-! ## Names of trees -/

/-- A character that stands for itself. -/
def isLetter (c : Char) : Bool := c ∉ ['(', ')', ',', '[', ']']

theorem foldlM_letters {opened : List (List Tree)} {cs : List Char} (hcs : cs.all isLetter = true)
    (before : List Char) : cs.foldlM Reading.step ⟨opened, .letters before⟩ =
      some ⟨opened, .letters (before ++ cs)⟩ := by
  induction cs generalizing before with
  | nil => simp
  | cons c cs ih =>
    rw [all_cons, Bool.and_eq_true] at hcs
    have hstep : Reading.step ⟨opened, .letters before⟩ c =
        some ⟨opened, .letters (before ++ [c])⟩ := by
      have hc := hcs.1
      simp only [isLetter, mem_cons, not_mem_nil, or_false, not_or,
        decide_eq_true_eq] at hc
      simp [Reading.step, hc]
    rw [foldlM_cons, hstep]
    simpa using ih hcs.2 (before ++ [c])

theorem spells_letters (hletters : name.toList.all isLetter = true)
    (hne : name.toList ≠ []) :
    Spells name (if name.toList = "string".toList then .string else .word) := by
  intro opened
  refine ⟨.letters name.toList, rfl, ?_⟩
  obtain ⟨c, cs, hname⟩ := exists_cons_of_ne_nil hne
  rw [hname] at hletters ⊢
  rw [all_cons, Bool.and_eq_true] at hletters
  have hstep : Reading.step ⟨opened, .nothing⟩ c = some ⟨opened, .letters [c]⟩ := by
    have hc := hletters.1
    simp only [isLetter, mem_cons, not_mem_nil, or_false, not_or,
      decide_eq_true_eq] at hc
    simp [Reading.step, hc]
  rw [foldlM_cons, hstep]
  exact foldlM_letters hletters.2 [c]

theorem spells_string : Spells "string" .string := spells_letters (by decide) (by decide)

theorem spells_numbered (hletters : name.toList.all isLetter = true)
    (hhead : name.toList.head? ≠ none ∧ name.toList.head? ≠ some 's') (n : Nat) :
    Spells (name ++ toString n) .word := by
  obtain ⟨c, cs, hname⟩ : ∃ c cs, name.toList = c :: cs :=
    exists_cons_of_ne_nil fun h => hhead.1 (by rw [h]; rfl)
  have hdigits : (toString n).toList.all isLetter = true := by
    rw [Nat.toString_eq_repr, Nat.toList_repr, all_eq_true]
    intro d hd
    have hdigit := Nat.isDigit_of_mem_toDigits (by decide) (by decide) hd
    simp only [isLetter, mem_cons, not_mem_nil, or_false, decide_eq_true_eq]
    rintro (rfl | rfl | rfl | rfl | rfl) <;> exact absurd hdigit (by decide)
  have hlist : (name ++ toString n).toList = c :: (cs ++ (toString n).toList) := by
    rw [String.toList_append, hname, cons_append]
  have hall : (name ++ toString n).toList.all isLetter = true := by
    rw [String.toList_append, all_append, hletters, hdigits]
    rfl
  have hspells := spells_letters hall (by rw [hlist]; exact cons_ne_nil _ _)
  rwa [if_neg] at hspells
  rw [hlist]
  intro heq
  have hc : c = 's' := (List.cons.inj heq).1
  exact hhead.2 (by rw [hname, hc]; rfl)

theorem Spells.array {t : Tree} (h : Spells name t) :
    Spells (name ++ "[]") (.array t) := by
  intro opened
  obtain ⟨recent, htree, hread⟩ := h opened
  refine ⟨.whole (.array t), rfl, ?_⟩
  have hlist : "[]".toList = ['[', ']'] := rfl
  rw [String.toList_append, foldlM_append, hread, hlist]
  simp [Reading.step, htree]

/-- The parts that are left of a tuple are read up to its end. -/
theorem foldlM_parts {ts : List Tree} (h : List.Forall₂ Spells names ts)
    (opened : List (List Tree)) (before : List Tree) (hne : names ≠ [] ∨ before = []) :
    ((",".intercalate names).toList ++ [')']).foldlM Reading.step ⟨before :: opened, .nothing⟩ =
      some ⟨opened, .whole (.tuple (before ++ ts))⟩ := by
  induction h generalizing before with
  | nil =>
    obtain rfl := hne.resolve_left fun h => h rfl
    rfl
  | @cons name t names ts hname hnames ih =>
    obtain ⟨recent, htree, hread⟩ := hname (before :: opened)
    cases hnames with
    | nil =>
      rw [String.intercalate_singleton, foldlM_append, hread]
      simp [Reading.step, htree]
    | @cons name' t' names ts hname' hnames =>
      have hcomma : ",".toList = [','] := rfl
      have hstep : Reading.step ⟨before :: opened, recent⟩ ',' =
          some ⟨(before ++ [t]) :: opened, .nothing⟩ := by
        simp [Reading.step, htree]
      have hrest := ih (before ++ [t]) (.inl (cons_ne_nil _ _))
      rw [append_assoc, singleton_append] at hrest
      rw [String.intercalate_cons_cons, String.toList_append, String.toList_append,
        append_assoc, append_assoc, foldlM_append, hread, hcomma]
      simp only [Option.bind_eq_bind, Option.bind_some, singleton_append, foldlM_cons,
        hstep, hrest]

theorem Spells.tuple {ts : List Tree} (h : List.Forall₂ Spells names ts) :
    Spells (Wire.tuple names) (.tuple ts) := by
  intro opened
  refine ⟨.whole (.tuple ts), rfl, ?_⟩
  have hlist : (Wire.tuple names).toList = '(' :: ((",".intercalate names).toList ++ [')']) := by
    rw [Wire.tuple, String.toList_append, String.toList_append]
    rfl
  have hparts := foldlM_parts h opened [] (.inr rfl)
  rw [nil_append] at hparts
  rw [hlist, foldlM_cons, ← hparts]
  rfl

end Wire

open Wire

/-! ## Types -/

mutual

/-- What stands on the wire for a type that has a class. -/
def Shape.tree : Shape → Tree
  | .vector e => .array e.tree
  | .tagged d _ => if d.tag = .string then .string else .word
  | .struct _ _ fields => .tuple fields.trees
  | _ => .word

def FieldShapes.trees : FieldShapes → List Tree
  | .nil => []
  | .cons _ s rest => s.tree :: rest.trees

end

variable {r : Registry}

theorem Shape.Classed.spells (h : s.Classed r) :
    ∀ {name : String}, s.canonicalName r = .ok name → Spells name s.tree := by
  refine h.inductOn (P := fun s => ∀ {name}, s.canonicalName r = .ok name → Spells name s.tree)
    (Q := fun fields => ∀ {owner names}, fieldNames r owner fields = .ok names →
      List.Forall₂ Spells names fields.trees)
    ?bool ?int ?address ?vector ?enum ?tagged ?struct ?nil ?cons
  case bool =>
    rintro _ ⟨⟩
    exact spells_letters (by decide) (by decide)
  case int =>
    rintro w _ ⟨⟩
    exact spells_numbered (by decide) (by decide) _
  case address =>
    rintro _ ⟨⟩
    exact spells_letters (by decide) (by decide)
  case vector =>
    intro e _ ih name hname
    obtain ⟨inner, hinner, hname⟩ := Assembly.bind_eq_ok hname
    cases hname
    exact (ih hinner).array
  case enum =>
    intro d args hsimple name hname
    rw [canonicalName, if_pos hsimple] at hname
    cases hname
    exact spells_letters (by decide) (by decide)
  case tagged =>
    intro d args _ name hname
    rw [canonicalName] at hname
    rw [tree]
    cases htag : d.tag with
    | txContext => exact absurd htag ‹_›
    | string =>
      rw [htag] at hname
      cases hname
      exact spells_string
    | bytes n =>
      rw [htag] at hname
      cases hname
      exact spells_numbered (by decide) (by decide) n
    | none | uid | id =>
      rw [htag] at hname
      cases hname
      exact spells_letters (by decide) (by decide)
  case struct =>
    intro d args fields _ _ ih name hname
    rw [canonicalName] at hname
    obtain ⟨names, hnames, hname⟩ := Assembly.bind_eq_ok hname
    cases hname
    exact Spells.tuple (ih hnames)
  case nil =>
    rintro _ _ ⟨⟩
    exact .nil
  case cons =>
    intro field s rest _ ih _ ihrest owner names hnames
    rw [fieldNames] at hnames
    obtain ⟨first, hfirst, hnames⟩ := Assembly.bind_eq_ok hnames
    obtain ⟨others, hothers, hnames⟩ := Assembly.bind_eq_ok hnames
    cases hnames
    exact .cons (ih (within_eq_ok hfirst)) (ihrest hothers)

example : ({} : Registry).canonicalName (.vector (.vector .u8)) = .ok "uint8[][]" := by
  decide +kernel

theorem Shape.Classed.isDynamic_eq (h : s.Classed r) :
    s.isDynamic r = .ok s.tree.isDynamic := by
  refine h.inductOn (P := fun s => s.isDynamic r = .ok s.tree.isDynamic)
    (Q := fun fields => ∀ owner, fieldsDynamic r owner fields = .ok (anyDynamic fields.trees))
    rfl (fun _ => rfl) rfl ?vector ?enum ?tagged ?struct (fun _ => rfl) ?cons
  case vector =>
    intro e _ ih
    rw [isDynamic, ih]
    rfl
  case enum =>
    intro d args hsimple
    rw [isDynamic, if_pos hsimple]
    rfl
  case tagged =>
    intro d args htag
    rw [isDynamic, tree]
    cases hd : d.tag with
    | txContext => exact absurd hd htag
    | _ => rfl
  case struct =>
    intro d args fields hidentity _ ih
    rw [isDynamic, ih]
    split
    · rename_i hobject
      rw [hidentity hobject]
      rfl
    · rfl
  case cons =>
    intro field s rest _ ih _ ihrest owner
    rw [fieldsDynamic, ih, ihrest]
    rfl

mutual

theorem Shape.staticSize_eq_tree : ∀ s : Shape, s.staticSize = s.tree.staticSize
  | .struct _ _ fields => FieldShapes.fieldsSize_eq_trees fields
  | .tagged d _ => by
    rw [Shape.tree]
    split <;> rfl
  | .vector _ | .bool | .int _ | .address | .signer | .param _ | .ref _ _ | .enum _ _
  | .missing _ _ | .broken _ _ _ | .endless _ _ => rfl

theorem FieldShapes.fieldsSize_eq_trees : ∀ fields : FieldShapes,
    Shape.fieldsSize fields = partsSize fields.trees
  | .nil => rfl
  | .cons _ s rest => by
    rw [Shape.fieldsSize, Shape.staticSize_eq_tree s, FieldShapes.fieldsSize_eq_trees rest]
    rfl

end

/-- The head of a type is as wide as that of its tree. -/
theorem Shape.Classed.headSize_eq (h : s.Classed r) :
    s.headSize r = .ok s.tree.headSize := by
  rw [headSize, h.isDynamic_eq, Tree.headSize, s.staticSize_eq_tree]
  cases s.tree.isDynamic <;> rfl

/-! ## Parameters -/

/-- What stands on the wire for a parameter: objects are passed by their identifier. -/
def Shape.paramTree (s : Shape) : Tree := if s.isObject then .word else s.tree

def Registry.paramHead (r : Registry) (t : MoveType) : Except Error UInt32 :=
  if (r.shape t).isObject then .ok wordSize else r.headSize t

theorem spells_param {t : MoveType} {head : UInt32}
    (hhead : r.paramHead t = .ok head) (hname : r.paramName t = .ok name) :
    Spells name (r.shape t).paramTree ∧ head = (r.shape t).paramTree.headSize := by
  unfold Registry.paramHead at hhead
  unfold Registry.paramName Shape.paramName at hname
  unfold Shape.paramTree
  split_ifs at hhead hname ⊢ with hobject
  · cases hhead
    cases hname
    exact ⟨spells_letters (by decide) (by decide), rfl⟩
  · obtain ⟨b, hb, -⟩ := Assembly.bind_eq_ok hhead
    have hclassed := Shape.classed_of_isDynamic hb
    exact ⟨hclassed.spells hname, Except.ok.inj (hhead.symm.trans hclassed.headSize_eq)⟩

theorem spells_params {ts : List MoveType} (step : Nat → String) {i : Nat}
    (hheads : ts.mapM r.paramHead = .ok heads)
    (hnames : ((ts.zipIdx i).mapM fun (t, i) => within (step i) (r.paramName t)) = .ok names) :
    ∃ trees, List.Forall₂ Spells names trees ∧ heads = trees.map Tree.headSize := by
  induction ts generalizing heads names i with
  | nil =>
    cases hheads
    cases hnames
    exact ⟨[], .nil, rfl⟩
  | cons t ts ih =>
    obtain ⟨head, others, hhead, hothers, rfl⟩ := Assembly.mapM_cons_eq_ok hheads
    rw [zipIdx_cons] at hnames
    obtain ⟨name, rest, hname, hrest, rfl⟩ := Assembly.mapM_cons_eq_ok hnames
    obtain ⟨hspells, rfl⟩ := spells_param hhead (Shape.within_eq_ok hname)
    obtain ⟨trees, htrees, rfl⟩ := ih hothers hrest
    exact ⟨_ :: trees, .cons hspells htrees, rfl⟩

/-! ## External names -/

theorem Text.LetterCase.apply_ne {c : Char} (hc : c ≠ '(') (next : LetterCase) :
    next.apply c ≠ '(' := by
  have hval {d : Char} (h : d = '(') : d.val.toNat = 40 := by rw [h]; rfl
  cases next with
  | kept => exact hc
  | raised =>
    change c.toUpper ≠ '('
    unfold Char.toUpper
    split
    · rename_i h
      have hle : 97 ≤ c.val.toNat ∧ c.val.toNat ≤ 122 :=
        ⟨UInt32.le_iff_toNat_le.1 h.1, UInt32.le_iff_toNat_le.1 h.2⟩
      intro heq
      have hsum := (UInt32.toNat_add ..).symm.trans (hval heq)
      have hdiff : ('A'.val - 'a'.val).toNat = 4294967264 := rfl
      omega
    · exact hc
  | lowered =>
    change c.toLower ≠ '('
    unfold Char.toLower
    split
    · rename_i h
      have hle : 65 ≤ c.val.toNat ∧ c.val.toNat ≤ 90 :=
        ⟨UInt32.le_iff_toNat_le.1 h.1, UInt32.le_iff_toNat_le.1 h.2⟩
      intro heq
      have hsum := (UInt32.toNat_add ..).symm.trans (hval heq)
      have hdiff : ('a'.val - 'A'.val).toNat = 32 := rfl
      omega
    · exact hc

/-- External names have no parentheses. -/
theorem Text.ne_of_mem_camelFrom {next : LetterCase} {cs : List Char} {c : Char}
    (h : c ∈ camelFrom next cs) : c ≠ '(' := by
  induction cs generalizing next with
  | nil => cases h
  | cons d cs ih =>
    rw [camelFrom] at h
    by_cases hd : d = '('
    · subst hd
      exact ih h
    · split_ifs at h
      · rcases mem_cons.1 h with rfl | h
        · exact LetterCase.apply_ne hd next
        · exact ih h
      · rcases mem_cons.1 h with rfl | h
        · exact LetterCase.apply_ne hd .raised
        · exact ih h
      · rcases mem_cons.1 h with rfl | h
        · exact hd
        · exact ih h
      · rcases mem_cons.1 h with rfl | h
        · exact hd
        · exact ih h
      · exact ih h
      · exact ih h

/-- The parameters of a signature begin at its first parenthesis. -/
theorem dropWhile_signature (name : String) (names : List String) :
    (Text.lowerCamel name ++ Wire.tuple names).toList.dropWhile (· ≠ '(') =
      (Wire.tuple names).toList := by
  rw [String.toList_append, Text.lowerCamel, String.toList_ofList, dropWhile_append_of_pos]
  · rw [Wire.tuple, String.append_assoc, String.toList_append]
    rfl
  · intro c hc
    simpa using Text.ne_of_mem_camelFrom hc

theorem readName_functionSignature {f : String} {ps ts : List MoveType} {signature : String}
    (hts : r.publicParams ps = .ok ts) (hheads : ts.mapM r.paramHead = .ok heads)
    (hsignature : r.functionSignature f ps = .ok signature) :
    ∃ trees, readName (signature.toList.dropWhile (· ≠ '(')) = some (.tuple trees) ∧
      heads = trees.map Tree.headSize := by
  obtain ⟨_, hts', hsignature⟩ := Assembly.bind_eq_ok hsignature
  cases hts.symm.trans hts'
  obtain ⟨names, hnames, hsignature⟩ := Assembly.bind_eq_ok hsignature
  cases hsignature
  obtain ⟨trees, htrees, rfl⟩ := spells_params
    (fun i => Text.lowerCamel f ++ "#" ++ toString i) hheads hnames
  rw [dropWhile_signature]
  exact ⟨trees, (Spells.tuple htrees).readName, rfl⟩

/-- Types with one canonical name are both static or both dynamic, take the same room among the
heads of a tuple and have the same tree of words, strings, arrays and tuples. So functions with one
signature take parameters with the same heads. -/
theorem same_wire_of_same_name (r₁ r₂ : Registry) :
    (∀ (t₁ t₂ : MoveType) (b₁ b₂ : Bool), r₁.isDynamic t₁ = .ok b₁ → r₂.isDynamic t₂ = .ok b₂ →
      ∃ name₁ name₂, r₁.canonicalName t₁ = .ok name₁ ∧ r₂.canonicalName t₂ = .ok name₂ ∧
        (name₁ = name₂ → b₁ = b₂ ∧ r₁.headSize t₁ = r₂.headSize t₂ ∧
          (r₁.shape t₁).tree = (r₂.shape t₂).tree)) ∧
    (∀ (f₁ f₂ : String) (ps₁ ps₂ ts₁ ts₂ : List MoveType) (heads₁ heads₂ : List UInt32)
      (signature : String), r₁.publicParams ps₁ = .ok ts₁ → r₂.publicParams ps₂ = .ok ts₂ →
      ts₁.mapM r₁.paramHead = .ok heads₁ → ts₂.mapM r₂.paramHead = .ok heads₂ →
      r₁.functionSignature f₁ ps₁ = .ok signature → r₂.functionSignature f₂ ps₂ = .ok signature →
      heads₁ = heads₂) := by
  refine ⟨fun t₁ t₂ b₁ b₂ h₁ h₂ => ?_, fun f₁ f₂ ps₁ ps₂ ts₁ ts₂ heads₁ heads₂ signature
    hts₁ hts₂ hheads₁ hheads₂ hsignature₁ hsignature₂ => ?_⟩
  · have hclassed₁ := Shape.classed_of_isDynamic h₁
    have hclassed₂ := Shape.classed_of_isDynamic h₂
    obtain ⟨name₁, hname₁⟩ := hclassed₁.exists_canonicalName
    obtain ⟨name₂, hname₂⟩ := hclassed₂.exists_canonicalName
    refine ⟨name₁, name₂, hname₁, hname₂, fun hsame => ?_⟩
    have htree : (r₁.shape t₁).tree = (r₂.shape t₂).tree := by
      have hread₁ := (hclassed₁.spells hname₁).readName
      have hread₂ := (hclassed₂.spells hname₂).readName
      rw [hsame, hread₂] at hread₁
      exact (Option.some.inj hread₁).symm
    refine ⟨?_, ?_, htree⟩
    · have hb₁ := Except.ok.inj (h₁.symm.trans hclassed₁.isDynamic_eq)
      have hb₂ := Except.ok.inj (h₂.symm.trans hclassed₂.isDynamic_eq)
      rw [hb₁, hb₂, htree]
    · rw [Registry.headSize, Registry.headSize, hclassed₁.headSize_eq, hclassed₂.headSize_eq, htree]
  · obtain ⟨trees₁, hread₁, rfl⟩ := readName_functionSignature hts₁ hheads₁ hsignature₁
    obtain ⟨trees₂, hread₂, rfl⟩ := readName_functionSignature hts₂ hheads₂ hsignature₂
    rw [hread₂] at hread₁
    cases hread₁
    rfl

/-! ## Two definitions with one name -/

namespace Readable

def digest : StructDef where
  id := Framework.bytes 32
  name := "Bytes32"
  tag := .bytes 32

/-- A byte string and numbers. -/
def receipt : StructDef where
  id := ⟨⟨Vector.replicate 32 7, "receipts"⟩, 0⟩
  name := "Receipt"
  fields := [⟨"digest", digest.type⟩, ⟨"flags", .vector (.int .w8)⟩]

def receipts : Registry := { structs := [digest, receipt] }

def identifier : StructDef where
  id := Framework.identifier
  name := "ID"
  fields := [⟨"bytes", .address⟩]
  tag := .id

def color : EnumDef where
  id := ⟨⟨Vector.replicate 32 9, "paint"⟩, 0⟩
  name := "Color"
  variants := [⟨"Red", []⟩, ⟨"Blue", []⟩]

/-- An identifier and the numbers of variants. -/
def painting : StructDef where
  id := ⟨color.id.home, 0⟩
  name := "Painting"
  fields := [⟨"owner", identifier.type⟩, ⟨"colors", .vector color.type⟩]

def paintings : Registry := { structs := [identifier, painting], enums := [color] }

end Readable

open Readable in
theorem same_wire_of_same_name_receipts :
    receipts.headSize (.vector receipt.type) = paintings.headSize (.vector painting.type) ∧
    (receipts.shape receipt.type).tree = (paintings.shape painting.type).tree ∧
    ∃ heads, [receipt.type, .bool].mapM receipts.paramHead = .ok heads ∧
      [painting.type, .bool].mapM paintings.paramHead = .ok heads := by
  obtain ⟨htypes, hsignatures⟩ := same_wire_of_same_name receipts paintings
  have hname (t : MoveType) (u : MoveType) (name : String) (b c : Bool)
      (ht : receipts.isDynamic t = .ok b) (hu : paintings.isDynamic u = .ok c)
      (htname : receipts.canonicalName t = .ok name)
      (huname : paintings.canonicalName u = .ok name) :
      receipts.headSize t = paintings.headSize u ∧
        (receipts.shape t).tree = (paintings.shape u).tree := by
    obtain ⟨_, _, h₁, h₂, h⟩ := htypes t u b c ht hu
    cases h₁.symm.trans htname
    cases h₂.symm.trans huname
    exact (h rfl).2
  refine ⟨(hname _ _ "(bytes32,uint8[])[]" true true ?_ ?_ ?_ ?_).1,
    (hname _ _ "(bytes32,uint8[])" true true ?_ ?_ ?_ ?_).2, ?_⟩
  iterate 8 decide +kernel
  obtain ⟨heads₁, h₁⟩ : ∃ heads, [receipt.type, .bool].mapM receipts.paramHead = .ok heads :=
    ⟨[32, 32], by decide +kernel⟩
  obtain ⟨heads₂, h₂⟩ : ∃ heads, [painting.type, .bool].mapM paintings.paramHead = .ok heads :=
    ⟨[32, 32], by decide +kernel⟩
  have hsame := hsignatures "publish" "Publish" [.signer, .ref false receipt.type, .bool]
    [painting.type, .ref true .bool] [receipt.type, .bool] [painting.type, .bool] heads₁ heads₂
    "publish((bytes32,uint8[]),bool)" (by decide +kernel) (by decide +kernel) h₁ h₂
    (by decide +kernel) (by decide +kernel)
  exact ⟨heads₁, h₁, hsame ▸ h₂⟩

end MoveCodec
