import TxnDb.Lib.Serial

/-!
# Consistency

A predicate on key-value maps that each transaction keeps, when it runs on its own
(`Keeps`), holds of more maps than those that the transactions of a history leave one after the
other: it is enough to have, with each transaction, those that wrote what it has read
(`keeps_filter`). So it holds of the map seen at any timestamp (`Validated.keeps_snapshot`).
-/

namespace Mvcc

open List

variable {K V T : Type*} [DecidableEq K] {I : (K → Option V) → Prop}
  {B H P Q : List (Txn K V T)} {ops : Txn K V T → List (Op K V)} {a : Txn K V T} {k : K}

/-- The operations, run on a map on which they replay, keep `I`. -/
def Keeps (I : (K → Option V) → Prop) (ops : List (Op K V)) : Prop :=
  ∀ m, I m → Replays m ops → I (execOps m ops)

/-- The versions of a key are those of the transactions that write it. -/
theorem versions_filter {S : Txn K V T → Prop} [DecidablePred S]
    (h : ∀ b ∈ P, b.Writes k → S b) : versions (P.filter S) k = versions P k := by
  rw [versions, filterMap_filter, versions]
  refine filterMap_congr fun b hb => ?_
  by_cases hS : S b
  · rw [if_pos (decide_eq_true hS)]
  · rw [if_neg (by simpa using hS), Txn.not_writes_iff.1 (mt (h b hb) hS)]
    rfl

/-- A transaction leaves the map that its operations do. -/
theorem current_append_eq_execOps (hbuf : ∀ k, buffered (ops a) k = a.writes.dlookup k) :
    current (P ++ [a]) = execOps (current P) (ops a) := by
  funext k
  rw [execOps_apply, hbuf, current_append_singleton]

/-- What each transaction keeps holds of the map left by some of them, if these are, with each
    of them, those that wrote what it reads. -/
theorem keeps_filter {S : Txn K V T → Prop} [DecidablePred S]
    (hbuf : ∀ a ∈ H, ∀ k, buffered (ops a) k = a.writes.dlookup k)
    (hrep : ∀ P a Q, H = P ++ a :: Q → Replays (current (B ++ P)) (ops a))
    (hclosed : ∀ P a Q, H = P ++ a :: Q → S a → ∀ k, ReadsFresh k (ops a) →
      ∀ b ∈ P, b.Writes k → S b)
    (hkeeps : ∀ a ∈ H, Keeps I (ops a)) (hB : I (current B)) :
    I (current (B ++ H.filter S)) := by
  induction H using List.reverseRecOn with
  | nil => rwa [filter_nil, append_nil]
  | append_singleton H a ih =>
    have ih := ih (fun b hb => hbuf b (mem_append_left _ hb))
      (fun P b Q hH => hrep P b (Q ++ [a]) (by rw [hH]; simp))
      (fun P b Q hH => hclosed P b (Q ++ [a]) (by rw [hH]; simp))
      (fun b hb => hkeeps b (mem_append_left _ hb))
    rw [filter_append, filter_singleton]
    by_cases ha : S a
    · rw [decide_eq_true ha, Bool.cond_true, ← append_assoc,
        current_append_eq_execOps (hbuf a (by simp))]
      refine hkeeps a (by simp) _ ih ((hrep H a [] rfl).congr fun k hk => ?_)
      -- what is left out has not written what `a` reads
      rw [current, current, versions_append, versions_append,
        versions_filter (hclosed H a [] rfl ha k hk)]
    · rw [decide_eq_false ha, Bool.cond_false, append_nil]
      exact ih

variable [LinearOrder T] {r : T}

/-- What is left depends on the versions only, whatever order they were applied in, provided that
    it is ascending. -/
theorem current_congr (hP : Ascending (versions P k)) (hQ : Ascending (versions Q k))
    (h : ∀ u, u ∈ versions P k ↔ u ∈ versions Q k) : current P k = current Q k := by
  have hnodup : ∀ {c : List (Version T V)}, Ascending c → c.Nodup := fun hc =>
    hc.imp fun hab heq => hab.ne (congrArg Version.commitTs heq)
  have hperm := (perm_ext_iff_of_nodup (hnodup hP) (hnodup hQ)).2 h
  rw [current, current,
    hperm.eq_of_pairwise (fun a b _ _ hab hba => absurd hab (lt_asymm hba)) hP hQ]

/-- The map seen at `r` is what the transactions at or below `r` leave. -/
theorem snapshot_eq_current_filter :
    snapshot H r k = current (H.filter fun b => b.commitTs ≤ r) k := by
  have hver : upTo (versions H k) r = versions (H.filter fun b => b.commitTs ≤ r) k := by
    rw [upTo, versions, versions, filterMap_filter, filter_filterMap]
    refine filterMap_congr fun b _ => ?_
    by_cases hb : b.commitTs ≤ r
    · cases b.writes.dlookup k <;> simp [hb]
    · cases b.writes.dlookup k <;> simp [hb, not_le.1 hb]
  rw [snapshot, visible, hver, current]

/-- A transaction that touches what it reads replays from what those before it left. -/
theorem Validated.replays_current (h : Validated (P ++ a :: Q))
    (hrep : Replays (snapshot (P ++ a :: Q) a.readTs) (ops a))
    (hfresh : ∀ k, ReadsFresh k (ops a) → a.Touches k) : Replays (current P) (ops a) :=
  hrep.congr fun k hk => h.snapshot_eq_current (hfresh k hk)

omit [DecidableEq K] in
/-- A transaction has seen those before it that wrote a key it touches. -/
theorem Validated.seen_of_mem (h : Validated (P ++ a :: Q)) {b : Txn K V T} (hb : b ∈ P)
    (hbk : b.Writes k) (hk : a.Touches k) : b.commitTs ≤ a.readTs :=
  (pairwise_append.1 h.seen).2.2 b hb a mem_cons_self k hbk hk

/-- Let the transactions applied after those of `B` touch what they read, and keep `I`, which
    holds of the map that those of `B` leave. Then it holds of the map left by any of them, with
    those of `B`, that are, with each transaction, those that it has seen. -/
theorem Validated.keeps_filter {S : Txn K V T → Prop} [DecidablePred S] (h : Validated (B ++ H))
    (hbuf : ∀ a ∈ H, ∀ k, buffered (ops a) k = a.writes.dlookup k)
    (hrep : ∀ a ∈ H, Replays (snapshot (B ++ H) a.readTs) (ops a))
    (hfresh : ∀ a ∈ H, ∀ k, ReadsFresh k (ops a) → a.Touches k)
    (hkeeps : ∀ a ∈ H, Keeps I (ops a)) (hB : I (current B))
    (hclosed : ∀ a ∈ H, S a → ∀ b ∈ H, b.commitTs ≤ a.readTs → S b) :
    I (current (B ++ H.filter S)) := by
  refine Mvcc.keeps_filter hbuf (fun P a Q hH => ?_) (fun P a Q hH ha k hk b hb hbk => ?_) hkeeps hB
  all_goals
    have hmem : a ∈ H := by rw [hH]; simp
    rw [hH, ← append_assoc] at h
  · have hrep := hrep a hmem
    rw [hH, ← append_assoc] at hrep
    exact h.replays_current hrep (hfresh a hmem)
  · exact hclosed a hmem ha b (by rw [hH]; simp [hb])
      (h.seen_of_mem (mem_append_right _ hb) hbk (hfresh a hmem k hk))

/-- What each transaction keeps holds of the map seen at any timestamp that is not below those
    of `B`. -/
theorem Validated.keeps_snapshot (h : Validated (B ++ H))
    (hbuf : ∀ a ∈ H, ∀ k, buffered (ops a) k = a.writes.dlookup k)
    (hrep : ∀ a ∈ H, Replays (snapshot (B ++ H) a.readTs) (ops a))
    (hfresh : ∀ a ∈ H, ∀ k, ReadsFresh k (ops a) → a.Touches k)
    (hkeeps : ∀ a ∈ H, Keeps I (ops a)) (hB : I (current B)) (hr : ∀ b ∈ B, b.commitTs ≤ r) :
    I (snapshot (B ++ H) r) := by
  have hsnap : snapshot (B ++ H) r = current (B ++ H.filter fun b => b.commitTs ≤ r) := by
    funext k
    rw [snapshot_eq_current_filter, filter_append, filter_eq_self.2 (by simpa using hr)]
  rw [hsnap]
  refine h.keeps_filter hbuf hrep hfresh hkeeps hB fun a ha har b _ hba => ?_
  exact (hba.trans_lt (h.lt a (mem_append_right _ ha))).le.trans har

end Mvcc
