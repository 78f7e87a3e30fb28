import MoveCodec.Proofs.Storage.HostSlots

/-!
# Storage is a cache in front of a total map

A guest calls the storage functions of its host as often and in whatever order it likes, and does
with its memory what it likes between the calls. What it loads under a key is the word it cached
there last, whether or not that word has been flushed; what is committed changes at flushes alone,
and then it is what the guest sees.
-/
namespace MoveCodec

open Storage
open List hiding Vector

namespace Machine

/-! ## Committed words -/

namespace Slots

def Keyed (s : Slots) : Prop := (s.map Prod.fst).Nodup

structure Compact (s : Slots) : Prop where
  keyed : s.Keyed
  ne_zero : ∀ e ∈ s, e.2 ≠ Word.zero

def commitAll (s : Slots) (entries : List (Word × Word)) : Slots :=
  entries.foldr (fun (k, v) s => s.commit k v) s

variable {s t : Slots} {k v : Word}

theorem keyed_nil : Keyed [] := nodup_nil

theorem compact_nil : Compact [] := ⟨keyed_nil, nofun⟩

theorem Keyed.erase (h : s.Keyed) (k : Word) : (s.erase k).Keyed :=
  h.sublist ((filter_sublist ..).map _)

theorem not_mem_keys_erase : k ∉ (s.erase k).map Prod.fst := by
  simp [Slots.erase]

theorem Keyed.set (h : s.Keyed) (k v : Word) : (s.set k v).Keyed :=
  nodup_cons.2 ⟨not_mem_keys_erase, h.erase k⟩

theorem Compact.erase (h : s.Compact) (k : Word) : (s.erase k).Compact :=
  ⟨h.keyed.erase k, fun e he => h.ne_zero e (mem_of_mem_filter he)⟩

theorem Compact.commit (h : s.Compact) (k v : Word) : (s.commit k v).Compact := by
  unfold Slots.commit
  split
  · exact h.erase k
  · rename_i hv
    refine ⟨h.keyed.set k v, fun e he => ?_⟩
    rcases mem_cons.1 he with rfl | he
    · exact hv
    · exact (h.erase k).ne_zero e he

theorem Compact.commitAll (h : s.Compact) (entries : List (Word × Word)) :
    (s.commitAll entries).Compact := by
  induction entries with
  | nil => exact h
  | cons e entries ih => exact ih.commit e.1 e.2

theorem Keyed.mem_iff (h : s.Keyed) : (k, v) ∈ s ↔ s.find? k = some v := by
  induction s with
  | nil => simp [find?]
  | cons e s ih =>
    obtain ⟨j, w⟩ := e
    obtain ⟨hj, hs⟩ := nodup_cons.1 h
    have hnot : (j, v) ∉ s := fun hmem => hj (mem_map.2 ⟨(j, v), hmem, rfl⟩)
    have ih : (k, v) ∈ s ↔ s.lookup k = some v := ih hs
    by_cases hk : k = j
    · subst hk
      simp [find?, hnot, eq_comm]
    · simp [find?, lookup_cons, beq_eq_false_iff_ne.2 hk, hk, ih]

theorem Compact.mem_iff (h : s.Compact) :
    (k, v) ∈ s ↔ v ≠ Word.zero ∧ (s.find? k).getD Word.zero = v := by
  constructor
  · intro hmem
    exact ⟨h.ne_zero _ hmem, by rw [h.keyed.mem_iff.1 hmem, Option.getD_some]⟩
  · rintro ⟨hv, hfind⟩
    rw [h.keyed.mem_iff]
    cases hs : s.find? k with
    | none =>
      rw [hs, Option.getD_none] at hfind
      exact absurd hfind.symm hv
    | some w =>
      rw [hs, Option.getD_some] at hfind
      rw [hfind]

/-- As many words are held as keys have a word that is not zero. -/
theorem Compact.length_eq (h : s.Compact) :
    s.length = Set.ncard {k | (s.find? k).getD Word.zero ≠ Word.zero} := by
  have hkeys : {k | (s.find? k).getD Word.zero ≠ Word.zero} = ↑(s.map Prod.fst).toFinset := by
    ext k
    simp only [Set.mem_ofPred_eq, coe_toFinset, mem_map, Prod.exists, exists_and_right,
      exists_eq_right]
    constructor
    · exact fun hk => ⟨_, h.mem_iff.2 ⟨hk, rfl⟩⟩
    · rintro ⟨v, hmem⟩
      obtain ⟨hv, hfind⟩ := h.mem_iff.1 hmem
      rwa [hfind]
  rw [hkeys, Set.ncard_coe_finset, toFinset_card_of_nodup h.keyed, length_map]

/-- The words of a map are held in one way, up to their order. -/
theorem Compact.perm (hs : s.Compact) (ht : t.Compact)
    (h : ∀ k, (s.find? k).getD Word.zero = (t.find? k).getD Word.zero) : s.Perm t := by
  rw [perm_ext_iff_of_nodup (List.Nodup.of_map _ hs.keyed) (List.Nodup.of_map _ ht.keyed)]
  rintro ⟨k, v⟩
  rw [hs.mem_iff, ht.mem_iff, h k]

theorem getD_find?_commitAll (s : Slots) (entries : Slots) (k : Word) :
    ((s.commitAll entries).find? k).getD Word.zero =
      (entries.find? k).getD ((s.find? k).getD Word.zero) := by
  induction entries with
  | nil => rfl
  | cons e entries ih =>
    obtain ⟨j, w⟩ := e
    change (((s.commitAll entries).commit j w).find? k).getD Word.zero = _
    rw [getD_find?_commit, ih]
    simp only [Slots.find?, lookup_cons]
    grind

theorem Keyed.find?_eq_of_perm (hs : s.Keyed) (h : s.Perm t) (k : Word) : s.find? k = t.find? k := by
  have ht : t.Keyed := (h.map Prod.fst).nodup_iff.1 hs
  ext v
  rw [← hs.mem_iff, ← ht.mem_iff, h.mem_iff]

/-- It does not matter in which order words of different keys are committed. -/
theorem Compact.commitAll_perm (h : s.Compact) {entries order : Slots} (hentries : entries.Keyed)
    (horder : entries.Perm order) : (s.commitAll entries).Perm (s.commitAll order) := by
  refine (h.commitAll entries).perm (h.commitAll order) fun k => ?_
  rw [getD_find?_commitAll, getD_find?_commitAll, hentries.find?_eq_of_perm horder]

end Slots

/-! ## Calls of a guest -/

inductive StorageCall where
  | load (key dest : UInt32)
  | cache (key value : UInt32)
  | flush (clear : UInt32)

namespace StorageCall

def func : StorageCall → HostFunc
  | .load .. => .storageLoad
  | .cache .. => .storageCache
  | .flush _ => .storageFlush

def args : StorageCall → List UInt32
  | .load key dest => [key, dest]
  | .cache key value => [key, value]
  | .flush clear => [clear]

def InBounds (m : Memory) : StorageCall → Prop
  | .load key dest => key.toNat + 32 ≤ m.size ∧ dest.toNat + 32 ≤ m.size
  | .cache key value => key.toNat + 32 ≤ m.size ∧ value.toNat + 32 ≤ m.size
  | .flush _ => True

def cached? (m : Memory) : StorageCall → Option (Word × Word)
  | .cache key value => some (wordOf m.byte key.toNat, wordOf m.byte value.toNat)
  | _ => none

def effect (m : Memory) (h : Host) : StorageCall → Host
  | .load .. => h
  | .cache key value => h.cache (wordOf m.byte key.toNat) (wordOf m.byte value.toNat)
  | .flush _ => h.flush

end StorageCall

/-- The calls of a guest, the first first, each with the memory it finds. -/
abbrev StorageCalls := List (Memory × StorageCall)

namespace StorageCalls

def serve (h : Host) : StorageCalls → Except Error Host
  | [] => .ok h
  | (m, c) :: rest => do
    let (_, h) ← h.call m c.func c.args
    serve h rest

/-- The word that was cached last under a key, zero if there is none. -/
def latest (past : StorageCalls) (k : Word) : Word :=
  ((past.filterMap fun (m, c) => c.cached? m).reverse.lookup k).getD Word.zero

end StorageCalls

namespace Host

variable {h : Host} {m : Memory}

theorem exists_call_eq (h : Host) {c : StorageCall} (hin : c.InBounds m) :
    ∃ m', h.call m c.func c.args = .ok (m', c.effect m h) := by
  cases c with
  | load key dest => exact ⟨_, call_load hin.1 hin.2⟩
  | cache key value => exact ⟨_, call_cache hin.1 hin.2⟩
  | flush clear => exact ⟨m, rfl⟩

theorem load_flush (h : Host) (k : Word) : h.flush.load k = h.load k := by
  rw [load_of_pending_nil h.flush rfl, committed_flush]

/-- The host after calls of a guest: it shows the words that were cached last, and holds them without
repetition. -/
structure Tracks (h : Host) (past : StorageCalls) : Prop where
  load_eq : ∀ k, h.load k = past.latest k
  storage : h.storage.Compact
  pending : h.pending.Keyed

theorem tracks_nil (origin : Vector UInt8 20) : Tracks { origin } [] where
  load_eq _ := rfl
  storage := Slots.compact_nil
  pending := Slots.keyed_nil

theorem latest_concat (past : StorageCalls) (m : Memory) (c : StorageCall) (k : Word) :
    StorageCalls.latest (past ++ [(m, c)]) k =
      match c.cached? m with
      | some (j, v) => if k = j then v else past.latest k
      | none => past.latest k := by
  rw [StorageCalls.latest, filterMap_append, reverse_append]
  cases hc : c.cached? m with
  | none => simp [hc, StorageCalls.latest]
  | some e =>
    obtain ⟨j, v⟩ := e
    by_cases hk : k = j
    · simp [hc, hk]
    · simp [hc, hk, lookup_cons, beq_eq_false_iff_ne.2 hk, StorageCalls.latest]

/-- One more call. -/
theorem Tracks.effect {past : StorageCalls} (ht : h.Tracks past) (m : Memory) (c : StorageCall) :
    (c.effect m h).Tracks (past ++ [(m, c)]) := by
  cases c with
  | load key dest =>
    refine ⟨fun k => ?_, ht.storage, ht.pending⟩
    rw [latest_concat, ← ht.load_eq k]
    rfl
  | cache key value =>
    refine ⟨fun k => ?_, ht.storage, ht.pending.set ..⟩
    rw [latest_concat, ← ht.load_eq k]
    exact load_cache h _ _ k
  | flush clear =>
    refine ⟨fun k => ?_, ht.storage.commitAll h.pending, Slots.keyed_nil⟩
    rw [latest_concat, ← ht.load_eq k]
    exact load_flush h k

/-- All calls are served if they stay in memory. -/
theorem Tracks.serve {past calls : StorageCalls} (ht : h.Tracks past)
    (hin : ∀ c ∈ calls, c.2.InBounds c.1) :
    ∃ h', calls.serve h = .ok h' ∧ h'.Tracks (past ++ calls) := by
  induction calls generalizing h past with
  | nil => exact ⟨h, rfl, by rwa [append_nil]⟩
  | cons c calls ih =>
    obtain ⟨m, c⟩ := c
    obtain ⟨hc, hcalls⟩ := forall_mem_cons.1 hin
    obtain ⟨m', hcall⟩ := exists_call_eq h hc
    obtain ⟨h', hserve, ht'⟩ := ih (ht.effect m c) hcalls
    refine ⟨h', ?_, by rwa [append_assoc] at ht'⟩
    rw [StorageCalls.serve, hcall]
    exact hserve

/-- A new host serves all calls of a guest that stay in memory. After any such calls a load gives
the word that was cached last under its key, zero if there is none, and nothing else changes; what is
committed does not change when a word is loaded or cached, and a flush makes it what was cached last
under every key. No committed word is zero, so that as many words are held as keys have a committed
word other than zero; and the words that wait can be committed in any order. -/
theorem storage_writes_back (origin : Vector UInt8 20) (past : StorageCalls)
    (hpast : ∀ c ∈ past, c.2.InBounds c.1) :
    ∃ h, past.serve { origin } = .ok h ∧
      (∀ m key dest, (StorageCall.load key dest).InBounds m →
        h.call m .storageLoad [key, dest] =
          .ok (m.splice dest.toNat (past.latest (wordOf m.byte key.toNat)).toList, h)) ∧
      (∀ m key value, (StorageCall.cache key value).InBounds m →
        ∃ h', h.call m .storageCache [key, value] = .ok (m, h') ∧
          ∀ k, h'.committed k = h.committed k) ∧
      (∀ m clear, ∃ h', h.call m .storageFlush [clear] = .ok (m, h') ∧
        ∀ k, h'.committed k = past.latest k) ∧
      (∀ e ∈ h.storage, e.2 ≠ Word.zero) ∧
      h.storage.length = Set.ncard {k | h.committed k ≠ Word.zero} ∧
      ∀ order, h.pending.Perm order → h.flush.storage.Perm (h.storage.commitAll order) := by
  obtain ⟨h, hserve, ht⟩ := (tracks_nil origin).serve hpast
  rw [nil_append] at ht
  refine ⟨h, hserve, fun m key dest hin => ?_, fun m key value hin => ?_, fun m clear => ?_,
    ht.storage.ne_zero, ht.storage.length_eq, fun order horder => ?_⟩
  · rw [call_load hin.1 hin.2, ht.load_eq]
  · exact ⟨_, call_cache hin.1 hin.2, fun k => rfl⟩
  · exact ⟨h.flush, rfl, fun k => by rw [committed_flush, ht.load_eq]⟩
  · exact ht.storage.commitAll_perm ht.pending horder

def threeWords : Memory :=
  (Memory.zeros 1 1).splice 0 ((Word.ofNat 7).toList ++ (Word.ofNat 42).toList)

/-- The second word is cached under the first and flushed, and then the third is cached there. -/
def clearing : StorageCalls :=
  [(threeWords, .cache 0 32), (threeWords, .flush 1), (threeWords, .cache 0 64)]

theorem storage_writes_back_clearing :
    (∀ c ∈ clearing, c.2.InBounds c.1) ∧
    ∃ h, clearing.serve {} = .ok h ∧
      h.call threeWords .storageLoad [0, 96] =
        .ok (threeWords.splice 96 (wordOf threeWords.byte 64).toList, h) ∧
      ∃ h', h.call threeWords .storageFlush [1] = .ok (threeWords, h') ∧
        h'.committed (wordOf threeWords.byte 0) = wordOf threeWords.byte 64 := by
  have hsize : threeWords.size = 65536 := by
    rw [threeWords, Memory.size_splice, Memory.size, Memory.zeros, Array.size_replicate, one_mul,
      pageSize]
  have hbounds : ∀ c ∈ clearing, c.2.InBounds c.1 := by
    simp [clearing, StorageCall.InBounds, hsize]
  have hlatest : clearing.latest (wordOf threeWords.byte 0) = wordOf threeWords.byte 64 := by
    simp [clearing, StorageCalls.latest, StorageCall.cached?]
  obtain ⟨h, hserve, hload, -, hflush, -⟩ :=
    storage_writes_back (Vector.replicate 20 0) clearing hbounds
  obtain ⟨h', hcall, hcommitted⟩ := hflush threeWords 1
  refine ⟨hbounds, h, hserve, ?_, h', hcall, (hcommitted _).trans hlatest⟩
  rw [hload threeWords 0 96 (by simp [StorageCall.InBounds, hsize]), UInt32.toNat_zero, hlatest,
    UInt32.toNat_ofNat]

end Host

end Machine

end MoveCodec
