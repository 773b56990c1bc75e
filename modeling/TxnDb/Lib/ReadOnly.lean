import Mathlib.Data.List.Sort
import TxnDb.Lib.Serial

/-!
# Serial orders of a history

Orders of the transactions of a validated history other than the one in which
they were applied.

* With read-only transactions, each of which reads at a timestamp of its own. A
  transaction is ranked by the number of readers below its commit timestamp, and
  the transactions, followed by the readers, are sorted by rank, those of equal
  rank staying in the order in which they were applied (`serialOrder`). This is
  a serial order, unless a reader *separates* two transactions (`Separates`): it
  sees the one applied last, but not the one applied first, which has read a key
  the other writes (`pairwise_precedes_serialOrder`).
* In order of commit timestamps. A transaction finds what it read, unless a
  transaction between the timestamp it reads at and the one it commits at has
  written a key it read (`replays_of_sorted`).
-/

namespace Mvcc

open List

section Sorting

variable {α : Type*} {f : α → ℕ} {R : α → α → Prop} {a : α} {l : List α}

theorem pairwise_orderedInsert (hsort : l.Pairwise fun b c => f b ≤ f c) (hl : l.Pairwise R)
    (ha : ∀ b ∈ l, (f a ≤ f b → R a b) ∧ (f b < f a → R b a)) :
    (l.orderedInsert (fun b c => f b ≤ f c) a).Pairwise R := by
  induction l with
  | nil => exact pairwise_singleton _ _
  | cons b l ih =>
    obtain ⟨hble, hsort'⟩ := pairwise_cons.1 hsort
    obtain ⟨hbR, hl'⟩ := pairwise_cons.1 hl
    rw [orderedInsert_cons]
    split_ifs with hab
    · refine pairwise_cons.2 ⟨fun c hc => (ha c hc).1 ?_, hl⟩
      rcases mem_cons.1 hc with rfl | hc
      · exact hab
      · exact hab.trans (hble c hc)
    · refine pairwise_cons.2 ⟨fun c hc => ?_, ih hsort' hl' fun c hc => ha c (mem_cons_of_mem _ hc)⟩
      rcases mem_orderedInsert _ |>.1 hc with rfl | hc
      · exact (ha b mem_cons_self).2 (not_le.1 hab)
      · exact hbR c hc

/-- Sorting is stable: only elements in the wrong order are exchanged. -/
theorem pairwise_insertionSort_of (h : l.Pairwise fun a b =>
    (f a ≤ f b → R a b) ∧ (f b < f a → R b a)) :
    (l.insertionSort fun b c => f b ≤ f c).Pairwise R := by
  induction l with
  | nil => exact .nil
  | cons a l ih =>
    obtain ⟨ha, hl⟩ := pairwise_cons.1 h
    rw [insertionSort_cons]
    exact pairwise_orderedInsert (pairwise_insertionSort (fun b c => f b ≤ f c) l) (ih hl)
      fun b hb => ha b ((mem_insertionSort _).1 hb)

end Sorting

variable {K V T : Type*} [DecidableEq K] [LinearOrder T] {H P Q R L : List (Txn K V T)}
  {a b x : Txn K V T} {k : K}

/-! ## Readers -/

/-- A reader: it writes nothing, and commits at the timestamp it reads at. -/
structure Txn.IsReader (x : Txn K V T) : Prop where
  writes : x.writes = []
  commitTs : x.commitTs = x.readTs

/-- A reader at `r` separates `a` from `b`, applied after it: it sees `b` and not
    `a`, which has read a key that `b` writes. -/
def Separates (r : T) (a b : Txn K V T) : Prop :=
  b.commitTs ≤ r ∧ r < a.commitTs ∧ ∃ k ∈ a.reads, b.Writes k

/-- The number of readers below `t`. -/
def rank (R : List (Txn K V T)) (t : T) : ℕ := R.countP fun x => x.readTs < t

/-- The transactions of the history and the readers, by rank. -/
def serialOrder (H R : List (Txn K V T)) : List (Txn K V T) :=
  (H ++ R).insertionSort fun a b => rank R a.commitTs ≤ rank R b.commitTs

omit [DecidableEq K]

theorem serialOrder_perm : (serialOrder H R).Perm (H ++ R) := perm_insertionSort _ _

theorem rank_mono {t t' : T} (h : t ≤ t') : rank R t ≤ rank R t' :=
  countP_mono_left fun _ _ hx => decide_eq_true ((of_decide_eq_true hx).trans_le h)

/-- A reader between two timestamps tells their ranks apart. -/
theorem rank_lt {t t' : T} (hx : x ∈ R) (hle : t ≤ x.readTs) (hlt : x.readTs < t') :
    rank R t < rank R t' := by
  obtain ⟨P, Q, rfl⟩ := append_of_mem hx
  have hP : rank P t ≤ rank P t' := rank_mono (hle.trans hlt.le)
  have hQ : rank Q t ≤ rank Q t' := rank_mono (hle.trans hlt.le)
  rw [rank, rank, countP_append, countP_append, countP_cons_of_neg (by simpa using hle),
    countP_cons_of_pos (by simpa using hlt)]
  exact Nat.add_lt_add_of_le_of_lt hP (Nat.lt_succ_of_le hQ)

/-- If two timestamps are of different ranks, a reader is between them. -/
theorem exists_of_rank_lt {t t' : T} (h : rank R t < rank R t') :
    ∃ x ∈ R, t ≤ x.readTs ∧ x.readTs < t' := by
  by_contra hno
  refine absurd h (not_lt.2 (countP_mono_left fun x hx hlt => ?_))
  by_contra hge
  exact hno ⟨x, hx, by simpa using hge, of_decide_eq_true hlt⟩

omit [LinearOrder T] in
theorem Txn.IsReader.not_writes (hx : x.IsReader) (k : K) : ¬x.Writes k := by
  rw [Txn.Writes, hx.writes]
  exact not_mem_nil

/-- A transaction ranked at most as a reader precedes it. -/
theorem precedes_reader (hx : x.IsReader) (hR : x ∈ R)
    (h : rank R a.commitTs ≤ rank R x.commitTs) : Precedes a x := by
  refine ⟨fun k _ _ => ?_, fun k _ hk => absurd hk (hx.not_writes k)⟩
  rw [hx.commitTs] at h
  by_contra hlt
  exact absurd (rank_lt hR le_rfl (not_le.1 hlt)) (not_lt.2 h)

/-- A reader ranked below a transaction precedes it. -/
theorem reader_precedes (hx : x.IsReader) (h : rank R x.commitTs < rank R a.commitTs) :
    Precedes x a := by
  refine ⟨fun k hk => absurd hk (hx.not_writes k), fun k _ _ => ?_⟩
  rw [hx.commitTs] at h
  by_contra hge
  exact absurd (rank_mono (not_lt.1 hge)) (not_le.2 h)

/-- Of two transactions of a history, the one applied last may precede the other,
    if it is ranked below it, and no reader separates them. -/
theorem precedes_of_rank_lt
    (hseen : ∀ k, a.Writes k → b.Touches k → a.commitTs ≤ b.readTs)
    (hb : b.readTs < b.commitTs) (hsep : ∀ x ∈ R, ¬Separates x.readTs a b)
    (h : rank R b.commitTs < rank R a.commitTs) : Precedes b a := by
  obtain ⟨x, hx, hbx, hxa⟩ := exists_of_rank_lt h
  have hba : b.commitTs < a.commitTs := hbx.trans_lt hxa
  have hnot : ∀ k, b.Touches k → ¬a.Writes k := fun k hbk hak =>
    absurd ((hseen k hak hbk).trans_lt (hb.trans hba)) (lt_irrefl _)
  refine ⟨fun k hbk hak => ?_, fun k hbk hak => absurd hak (hnot k hbk)⟩
  rcases hak with hak | hak
  · exact absurd hak (hnot k (.inl hbk))
  · exact absurd ⟨hbx, hxa, k, hak, hbk⟩ (hsep x hx)

/-- If no reader separates two transactions of a history, every transaction
    precedes the next ones in the order of ranks. -/
theorem pairwise_precedes_serialOrder (hH : Validated H) (hR : ∀ x ∈ R, x.IsReader)
    (hsep : H.Pairwise fun a b => ∀ x ∈ R, ¬Separates x.readTs a b) :
    (serialOrder H R).Pairwise Precedes := by
  refine pairwise_insertionSort_of (pairwise_append.2 ⟨?_, ?_, fun a ha x hx => ?_⟩)
  · refine ((hH.seen.and hH.pairwise_precedes).and hsep).imp_of_mem fun {a b} _ hb h => ?_
    exact ⟨fun _ => h.1.2, precedes_of_rank_lt h.1.1 (hH.lt b hb) h.2⟩
  · refine pairwise_of_forall_mem_list fun x hx y hy => ?_
    exact ⟨precedes_reader (hR y hy) hy, fun h => reader_precedes (hR y hy) h⟩
  · exact ⟨precedes_reader (hR x hx) hx, reader_precedes (hR x hx)⟩

/-- If no reader separates two transactions of a history, its transactions and
    the readers are serial in the order of ranks, if each of them replays from
    what it sees in the history, and touches what it reads. -/
theorem serial_serialOrder [DecidableEq K] {ops : Txn K V T → List (Op K V)} (hH : Validated H)
    (hR : ∀ x ∈ R, x.IsReader) (hsep : H.Pairwise fun a b => ∀ x ∈ R, ¬Separates x.readTs a b)
    (hbuf : ∀ a ∈ H ++ R, ∀ k, buffered (ops a) k = a.writes.dlookup k)
    (hrep : ∀ a ∈ H ++ R, Replays (snapshot H a.readTs) (ops a))
    (hfresh : ∀ a ∈ H ++ R, ∀ k, ReadsFresh k (ops a) → a.Touches k) :
    Serial (fun _ => none) ((serialOrder H R).map ops) := by
  have hmem : ∀ a, a ∈ serialOrder H R ↔ a ∈ H ++ R := fun a => serialOrder_perm.mem_iff
  have hprec := pairwise_precedes_serialOrder hH hR hsep
  have hlt : ∀ a ∈ serialOrder H R, ∀ k, a.Writes k → a.readTs < a.commitTs := fun a ha k hk => by
    rcases mem_append.1 ((hmem a).1 ha) with ha | ha
    · exact hH.lt a ha
    · exact absurd hk ((hR a ha).not_writes k)
  refine serial_of_precedes hprec hlt (fun a ha => hbuf a ((hmem a).1 ha)) (fun a ha => ?_)
    fun a ha => hfresh a ((hmem a).1 ha)
  refine (hrep a ((hmem a).1 ha)).congr fun k _ => ?_
  refine snapshot_congr (hH.ascending k) (ascending_of_precedes hprec fun b hb => hlt b hb k) ?_
  intro b hbk
  rw [hmem, mem_append]
  exact (or_iff_left fun hb => (hR b hb).not_writes k hbk).symm

/-! ## The order of timestamps -/

/-- In the order of commit timestamps, a transaction replays from the map left by
    those before it, if none of them has written a key it reads, above its timestamp. -/
theorem replays_of_sorted [DecidableEq K] {ops : List (Op K V)} (hH : Validated H)
    (hperm : (P ++ a :: Q).Perm H)
    (hsort : (P ++ a :: Q).Pairwise fun b c => b.commitTs < c.commitTs)
    (hrep : Replays (snapshot H a.readTs) ops)
    (hseen : ∀ b ∈ P, ∀ k, ReadsFresh k ops → b.Writes k → b.commitTs ≤ a.readTs) :
    Replays (current P) ops := by
  refine hrep.congr fun k hk => ?_
  have hasc : Ascending (versions (P ++ a :: Q) k) :=
    ascending_of_pairwise (hsort.imp fun h _ _ => h)
  rw [snapshot_congr (hH.ascending k) hasc fun b _ => hperm.mem_iff.symm, snapshot_append_of_lt,
    snapshot_eq_current]
  · exact fun b hb => hseen b hb k hk
  · -- those from `a` on are above the timestamp it reads at
    have ha : a.readTs < a.commitTs := hH.lt a (hperm.subset (by simp))
    intro b hb _
    rcases mem_cons.1 hb with rfl | hb
    · exact ha
    · exact ha.trans ((pairwise_cons.1 (pairwise_append.1 hsort).2.1).1 b hb)

end Mvcc
