import MoveCodec.Assembly.Cache
import MoveCodec.Proofs.Format.Cbor

/-!
# Requests and their keys

Different requests have different keys, so the cache never answers one request with the function of
another.
-/
namespace MoveCodec

namespace MoveType

/-- The number that the key of a type starts with. -/
theorem key_eq_map (t : MoveType) : ∃ rest, t.key = .map ((1, .unsigned t.kindCode) :: rest) := by
  cases t <;> simp [key, definitionKey, kindCode]

theorem kindCode_of_key_eq {s t : MoveType} (h : s.key = t.key) : s.kindCode = t.kindCode := by
  obtain ⟨_, hs⟩ := key_eq_map s
  obtain ⟨_, ht⟩ := key_eq_map t
  rw [hs, ht] at h
  simp only [Cbor.Item.map.injEq, List.cons.injEq, Prod.mk.injEq, Cbor.Item.unsigned.injEq,
    true_and] at h
  exact h.1

/-- Types with equal keys are made by one constructor. -/
theorem ctorIdx_of_key_eq {s t : MoveType} (h : s.key = t.key) : s.ctorIdx = t.ctorIdx := by
  have hkind := kindCode_of_key_eq h
  cases s with
  | int v =>
    cases t with
    | int w => rfl
    | _ => cases v <;> cases hkind
  | _ =>
    cases t with
    | int w => cases w <;> cases hkind
    | _ => first | rfl | cases hkind

theorem keys_eq (ts : List MoveType) : keys ts = ts.map key := by
  induction ts with
  | nil => simp [keys]
  | cons t ts ih => rw [keys, ih, List.map_cons]

theorem definition_inj {code : Nat} {i j : DefId} {as bs : List MoveType}
    (h : definitionKey code i (keys as) = definitionKey code j (keys bs)) :
    i = j ∧ as.map key = bs.map key := by
  obtain ⟨⟨a, m⟩, x⟩ := i
  obtain ⟨⟨b, n⟩, y⟩ := j
  simp only [definitionKey, keys_eq] at h
  split_ifs at h <;> simp_all [Vector.toList_inj, UInt16.toNat_inj]

theorem map_key_inj {as bs : List MoveType} (hinj : ∀ a ∈ as, ∀ b, a.key = b.key → a = b)
    (h : as.map key = bs.map key) : as = bs := by
  induction as generalizing bs with
  | nil => simpa using h.symm
  | cons a as ih =>
    cases bs with
    | nil => simp at h
    | cons b bs =>
      obtain ⟨hhead, htail⟩ := List.cons.inj h
      rw [hinj a (by simp) b hhead, ih (fun x hx => hinj x (by simp [hx])) htail]

theorem key_inj (s : MoveType) : ∀ t, s.key = t.key → s = t := by
  induction s using rec_args with
  | bool | address | signer =>
    intro t h
    have hctor := ctorIdx_of_key_eq h
    cases t <;> first | rfl | cases hctor
  | int v =>
    intro t h
    have hctor := ctorIdx_of_key_eq h
    have hkind := kindCode_of_key_eq h
    cases t with
    | int w => cases v <;> cases w <;> first | rfl | cases hkind
    | _ => cases hctor
  | vector e ih =>
    intro t h
    have hctor := ctorIdx_of_key_eq h
    cases t with
    | vector f => exact congrArg _ (ih f (by simpa [key] using h))
    | _ => cases hctor
  | struct id args ih =>
    intro t h
    have hctor := ctorIdx_of_key_eq h
    cases t with
    | struct id' args' =>
      simp only [key] at h
      obtain ⟨rfl, hargs⟩ := definition_inj h
      rw [map_key_inj ih hargs]
    | _ => cases hctor
  | enum id args ih =>
    intro t h
    have hctor := ctorIdx_of_key_eq h
    cases t with
    | enum id' args' =>
      simp only [key] at h
      obtain ⟨rfl, hargs⟩ := definition_inj h
      rw [map_key_inj ih hargs]
    | _ => cases hctor
  | ref m u ih =>
    intro t h
    have hctor := ctorIdx_of_key_eq h
    cases t with
    | ref n v =>
      have hboth : u.key = v.key ∧ m = n := by
        cases m <;> cases n <;> simp_all [key]
      rw [ih v hboth.1, hboth.2]
    | _ => cases hctor
  | param i =>
    intro t h
    have hctor := ctorIdx_of_key_eq h
    cases t with
    | param j =>
      simp only [key] at h
      split_ifs at h <;> simp_all [UInt16.toNat_inj]
    | _ => cases hctor

end MoveType

theorem Assembly.requestKey_inj {kind kind' : String} {args args' : List MoveType}
    (h : requestKey kind args = requestKey kind' args') : kind = kind' ∧ args = args' := by
  have hitem := Cbor.encode_injective h
  have hempty : ∀ ts : List MoveType, ts.isEmpty = true → ts.map MoveType.key = [] := by simp
  have hboth : kind = kind' ∧ args.map MoveType.key = args'.map MoveType.key := by
    split_ifs at hitem <;> simp_all
  exact ⟨hboth.1, MoveType.map_key_inj (fun a _ => MoveType.key_inj a) hboth.2⟩

/-- Types have the same encoded key exactly when they are equal. -/
theorem MoveType.encode_key_eq_iff (s t : MoveType) :
    Cbor.encode s.key = Cbor.encode t.key ↔ s.beq t = true := by
  rw [beq_iff]
  constructor
  · intro h
    exact key_inj s t (Cbor.encode_injective h)
  · rintro rfl
    rfl

/-- Lists of types are equal when they are equal position by position. -/
theorem MoveType.eq_of_beq_getElem {as bs : List MoveType} (hlength : as.length = bs.length)
    (h : ∀ (i : Nat) (ha : i < as.length) (hb : i < bs.length), as[i].beq bs[i] = true) :
    as = bs := by
  apply List.ext_getElem hlength
  intro i ha hb
  exact (beq_iff _ _).1 (h i ha hb)

/-- Keys tell requests apart: two requests have the same key exactly when they have the same kind
and, position by position, equal arguments; and so do the keys of single types. -/
theorem Assembly.requestKey_eq_iff :
    (∀ (kind kind' : String) (args args' : List MoveType),
      requestKey kind args = requestKey kind' args' ↔
        kind = kind' ∧ args.length = args'.length ∧
          ∀ (i : Nat) (ha : i < args.length) (hb : i < args'.length),
            args[i].beq args'[i] = true) ∧
      ∀ s t : MoveType, Cbor.encode s.key = Cbor.encode t.key ↔ s.beq t = true := by
  refine ⟨fun kind kind' args args' => ⟨fun h => ?_, ?_⟩, MoveType.encode_key_eq_iff⟩
  · obtain ⟨rfl, rfl⟩ := requestKey_inj h
    exact ⟨rfl, rfl, fun i _ _ => (MoveType.beq_iff _ _).2 rfl⟩
  · rintro ⟨rfl, hlength, hargs⟩
    rw [MoveType.eq_of_beq_getElem hlength hargs]

end MoveCodec
