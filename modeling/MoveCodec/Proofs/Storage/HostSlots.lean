import MoveCodec.Proofs.Storage.SlotArithmetic

/-!
# Storage of the host

What a guest sees under a key after it has cached words and flushed them. Words that are cached along
a row of slots are seen at these slots, as long as the row does not come back to its start; under
every other key the guest sees what it saw before.
-/
namespace MoveCodec

open Machine Storage List

/-! ## Keys -/

namespace Machine

namespace Slots

variable (s : Slots) (k v j : Word)

theorem find?_erase : (s.erase k).find? j = if j = k then none else s.find? j := by
  induction s with
  | nil => simp [erase, find?]
  | cons e s ih =>
    obtain ⟨i, w⟩ := e
    simp only [erase, find?, filter_cons, lookup_cons, bne_iff_ne] at ih ⊢
    split_ifs <;> grind

theorem find?_set : (s.set k v).find? j = if j = k then some v else s.find? j := by
  have h : (s.set k v).find? j = if j == k then some v else (s.erase k).find? j := by
    simp only [set, find?, lookup_cons]
    split <;> simp_all
  rw [h, find?_erase]
  split_ifs <;> simp_all

theorem getD_find?_commit :
    ((s.commit k v).find? j).getD Word.zero = if j = k then v else (s.find? j).getD Word.zero := by
  unfold commit
  split
  · rw [find?_erase]
    split_ifs <;> simp_all
  · rw [find?_set]
    split_ifs <;> simp_all

end Slots

namespace Host

variable (h : Host)

theorem load_eq (k : Word) : h.load k = (h.pending.find? k).getD (h.committed k) := by
  unfold load committed
  split <;> simp_all

theorem load_cache (k v j : Word) : (h.cache k v).load j = if j = k then v else h.load j := by
  rw [load_eq, load_eq]
  change ((h.pending.set k v).find? j).getD (h.committed j) = _
  rw [Slots.find?_set]
  split_ifs <;> simp

/-- A flush commits what the guest sees. -/
theorem committed_flush (k : Word) : h.flush.committed k = h.load k := by
  rw [load_eq]
  change ((h.pending.foldr (fun (e : Word × Word) s => Slots.commit s e.1 e.2)
    h.storage).find? k).getD Word.zero = (h.pending.find? k).getD (h.committed k)
  induction h.pending with
  | nil => rfl
  | cons e s ih =>
    obtain ⟨i, w⟩ := e
    rw [foldr_cons, Slots.getD_find?_commit, ih]
    simp only [Slots.find?, lookup_cons]
    grind

theorem load_of_pending_nil {k : Word} (hp : h.pending = []) : h.load k = h.committed k := by
  rw [load_eq, hp]
  rfl

theorem readWord_eq {m : Memory} {p : UInt32} (h : p.toNat + 32 ≤ m.size) :
    Host.readWord m p = .ok (wordOf m.byte p.toNat) := by
  rw [Host.readWord, Host.read_eq h]
  rfl

variable {h} {m : Memory}

theorem call_load {key dest : UInt32} (hkey : key.toNat + 32 ≤ m.size)
    (hdest : dest.toNat + 32 ≤ m.size) :
    h.call m .storageLoad [key, dest] =
      .ok (m.splice dest.toNat (h.load (wordOf m.byte key.toNat)).toList, h) := by
  have hcall : h.call m .storageLoad [key, dest] = do
      let k ← readWord m key
      return (← write m dest (h.load k).toList, h) := rfl
  rw [hcall, readWord_eq hkey]
  change (do return (← write m dest (h.load (wordOf m.byte key.toNat)).toList, h)) = _
  rw [write_eq (by simpa using hdest)]
  rfl

theorem call_cache {key value : UInt32} (hkey : key.toNat + 32 ≤ m.size)
    (hvalue : value.toNat + 32 ≤ m.size) :
    h.call m .storageCache [key, value] =
      .ok (m, h.cache (wordOf m.byte key.toNat) (wordOf m.byte value.toNat)) := by
  have hcall : h.call m .storageCache [key, value] = do
      let k ← readWord m key
      let v ← readWord m value
      return (m, h.cache k v) := rfl
  rw [hcall, readWord_eq hkey, readWord_eq hvalue]
  rfl

end Host

end Machine

/-! ## Words along a row of slots -/

/-- The host after words were cached along the slots from `s` on. -/
def caching (h : Host) : Slot → List Word → Host
  | _, [] => h
  | s, w :: ws => caching (h.cache s w) (nextSlot s) ws

/-- The guest sees the words along the slots from `s` on. -/
def Loads (h : Host) : Slot → List Word → Prop
  | _, [] => True
  | s, w :: ws => h.load s = w ∧ Loads h (nextSlot s) ws

section

variable {h h' : Host} {s : Slot} {ws vs : List Word}

theorem caching_append : caching h s (ws ++ vs) =
    caching (caching h s ws) (nextSlot^[ws.length] s) vs := by
  induction ws generalizing h s with
  | nil => rfl
  | cons w ws ih =>
    rw [cons_append, caching, ih]
    rfl

theorem loads_append : Loads h s (ws ++ vs) ↔ Loads h s ws ∧ Loads h (nextSlot^[ws.length] s) vs := by
  induction ws generalizing s with
  | nil => simp [Loads]
  | cons w ws ih =>
    rw [cons_append, Loads, ih, Loads, and_assoc]
    rfl

theorem loads_iff : Loads h s ws ↔ ∀ e ∈ (slots s ws.length).zip ws, h.load e.1 = e.2 := by
  induction ws generalizing s with
  | nil => simp [Loads, slots]
  | cons w ws ih =>
    rw [Loads, ih, length_cons, slots, zip_cons_cons, forall_mem_cons]

/-- Under other keys the guest sees what it saw before. -/
theorem load_caching {k : Word} (hk : k ∉ slots s ws.length) : (caching h s ws).load k = h.load k := by
  induction ws generalizing h s with
  | nil => rfl
  | cons w ws ih =>
    rw [length_cons, slots, mem_cons, not_or] at hk
    rw [caching, ih hk.2, Host.load_cache, if_neg hk.1]

theorem loads_caching (hnodup : (slots s ws.length).Nodup) : Loads (caching h s ws) s ws := by
  induction ws generalizing h s with
  | nil => trivial
  | cons w ws ih =>
    rw [length_cons, slots, nodup_cons] at hnodup
    rw [caching]
    refine ⟨?_, ih hnodup.2⟩
    rw [load_caching hnodup.1, Host.load_cache, if_pos rfl]

theorem Loads.congr (hl : Loads h s ws) (hsame : ∀ k ∈ slots s ws.length, h'.load k = h.load k) :
    Loads h' s ws := by
  rw [loads_iff] at hl ⊢
  exact fun e he => (hsame _ (of_mem_zip he).1).trans (hl e he)

theorem loads_iff_map : Loads h s ws ↔ (slots s ws.length).map h.load = ws := by
  induction ws generalizing s with
  | nil => simp [Loads, slots]
  | cons w ws ih => rw [Loads, ih, length_cons, slots, map_cons, List.cons.injEq]

end

/-- The words are all that was committed along the slots from `s` on, and what was cached before is
committed with them. -/
structure Commits (s : Slot) (ws : List Word) (h h' : Host) : Prop where
  /-- A row with more words than there are slots comes back to its start. -/
  words : ws.length ≤ 2 ^ 256 → (slots s ws.length).map h'.committed = ws
  others : ∀ k ∉ slots s ws.length, h'.committed k = h.load k
  settled : h'.pending = []

theorem commits_flush (h : Host) (s : Slot) (ws : List Word) :
    Commits s ws h (caching h s ws).flush where
  words hlen := by
    rw [map_congr_left fun k _ => Host.committed_flush _ k]
    exact loads_iff_map.1 (loads_caching (nodup_slots s hlen))
  others k hk := by rw [Host.committed_flush, load_caching hk]
  settled := rfl

section

variable {h h' : Host} {s : Slot} {ws : List Word}

/-- Without cached words, nothing else changes. -/
theorem Commits.committed_eq (hc : Commits s ws h h') (hp : h.pending = []) {k : Word}
    (hk : k ∉ slots s ws.length) : h'.committed k = h.committed k := by
  rw [hc.others k hk, h.load_of_pending_nil hp]

/-- What was committed is seen. -/
theorem Commits.loads (hc : Commits s ws h h') (hlen : ws.length ≤ 2 ^ 256) : Loads h' s ws := by
  rw [loads_iff_map, map_congr_left fun k _ => h'.load_of_pending_nil hc.settled]
  exact hc.words hlen

end

end MoveCodec
