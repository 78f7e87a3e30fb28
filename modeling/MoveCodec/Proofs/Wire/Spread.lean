import MoveCodec.Proofs.Codec.ReadWords

/-!
# Where a canonical encoding lies in memory

The heads of a tuple lie one after another, and so do the tails of its dynamic parts. `Spread` says
where the parts from one of them on lie; it passes from each part to the next.
-/
namespace MoveCodec.Wire

open Machine List

/-- A part of a tuple at `base` whose head is at `r`: a static part stands there, a dynamic one at
the distance from `base` that is written there. All of it is below `K`. -/
def Piece.Lies (f : Nat → UInt8) (K base r : Nat) (p : Piece) : Prop :=
  base ≤ K ∧ r + p.width ≤ K ∧ if p.dynamic then ∃ off, wordAt f r off ∧ base + off + p.bytes.length ≤ K ∧
      view f (base + off) p.bytes.length = p.bytes
    else view f r p.bytes.length = p.bytes

/-- The heads of some parts of a tuple at `base` lie from `r` on, and their tails from `t` on. -/
structure Spread (f : Nat → UInt8) (K base r t : Nat) (ps : List Piece) : Prop where
  heads_eq : view f r (headsSize ps) = heads (t - base) ps
  tails_eq : view f t (tails ps).length = tails ps
  heads_le : r + headsSize ps ≤ K
  tails_le : t + (tails ps).length ≤ K
  base_le : base ≤ t

variable {f g : Nat → UInt8} {K base r t a : Nat} {p : Piece} {ps : List Piece}

theorem Spread.of_join (h : view f a (join ps).length = join ps) (hle : a + (join ps).length ≤ K) :
    Spread f K a a (a + headsSize ps) ps := by
  have hlen := length_join ps
  rw [hlen, view_add] at h
  obtain ⟨hheads, htails⟩ := append_inj h (by simp)
  refine ⟨?_, htails, by omega, by omega, by omega⟩
  rw [Nat.add_sub_cancel_left]
  exact hheads

/-- Static parts lie in their heads, wherever their tuple starts. -/
theorem Spread.of_static (hstatic : ∀ p ∈ ps, p.dynamic = false)
    (h : view f a (join ps).length = join ps) (hle : a + (join ps).length ≤ K) (hbase : base ≤ K) :
    Spread f K base a base ps := by
  have htails := tails_static hstatic
  rw [length_join, htails, length_nil, Nat.add_zero] at h hle
  rw [join, htails, append_nil] at h
  refine ⟨h.trans (heads_static hstatic _ _), ?_, hle, ?_, le_rfl⟩
  · rw [htails]
    rfl
  · rwa [htails]

/-- What lies in the first part and what lies in the others. -/
theorem Spread.cons (h : Spread f K base r t (p :: ps)) :
    p.Lies f K base r ∧ Spread f K base (r + p.width) (t + p.tail.length) ps := by
  obtain ⟨hheads, htails, hle, hle', hbase⟩ := h
  rw [headsSize] at hheads hle
  rw [heads, view_add] at hheads
  rw [tails, length_append] at htails hle'
  rw [view_add] at htails
  obtain ⟨hhead, hheads⟩ := append_inj hheads (by simp)
  obtain ⟨htail, htails⟩ := append_inj htails (by simp)
  refine ⟨⟨by omega, by omega, ?_⟩, ⟨?_, htails, by omega, by omega, by omega⟩⟩
  · cases hd : p.dynamic with
    | true =>
      simp only [Piece.head, Piece.width, Piece.tail, hd, if_true] at hhead htail hle'
      refine ⟨t - base, hhead, ?_, ?_⟩
      · omega
      · rwa [Nat.add_sub_cancel' hbase]
    | false =>
      simpa [Piece.head, Piece.width, hd] using hhead
  · rw [hheads]
    congr 1
    omega

theorem Spread.congr (h : Spread f K base r t ps) (hfg : ∀ i < K, f i = g i) :
    Spread g K base r t ps := by
  obtain ⟨hheads, htails, hle, hle', hbase⟩ := h
  refine ⟨?_, ?_, hle, hle', hbase⟩
  · rw [← view_congr fun i hi => hfg (r + i) (by omega)]
    exact hheads
  · rw [← view_congr fun i hi => hfg (t + i) (by omega)]
    exact htails

theorem Piece.Lies.congr (h : p.Lies f K base r) (hfg : ∀ i < K, f i = g i) :
    p.Lies g K base r := by
  obtain ⟨hbase, hle, h⟩ := h
  refine ⟨hbase, hle, ?_⟩
  rw [Piece.width] at hle
  split_ifs at h hle ⊢ with hd
  · obtain ⟨off, hword, hfit, hview⟩ := h
    refine ⟨off, ?_, hfit, ?_⟩
    · rw [wordAt, ← view_congr fun i hi => hfg (r + i) (by omega)]
      exact hword
    · rw [← view_congr fun i hi => hfg (base + off + i) (by omega)]
      exact hview
  · rw [← view_congr fun i hi => hfg (r + i) (by omega)]
    exact h

/-- Parts with heads of one width lie at equal distances. -/
theorem Spread.lies {w j : Nat} (hw : ∀ q ∈ ps, q.width = w) (h : Spread f K base r t ps)
    (hj : ps[j]? = some p) : p.Lies f K base (r + j * w) := by
  induction ps generalizing r t j with
  | nil => cases hj
  | cons q ps ih =>
    obtain ⟨hq, hps⟩ := h.cons
    cases j with
    | zero =>
      cases hj
      simpa using hq
    | succ j =>
      have := ih (fun q hq => hw q (mem_cons_of_mem _ hq)) hps hj
      rwa [hw q (mem_cons_self ..), Nat.add_assoc, Nat.add_comm w, ← Nat.succ_mul] at this

end MoveCodec.Wire
