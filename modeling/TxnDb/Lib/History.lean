import Mathlib.Data.List.Induction
import Mathlib.Data.List.Sigma
import Mathlib.Data.List.Sort
import TxnDb.Lib.Chain

/-!
# Histories of validated transactions

The abstract side of optimistic multi-version concurrency control. A
transaction (`Txn`) reads at a timestamp, and commits its writes at another; a
history is the list of the transactions that committed, in the order in which
they were *applied*, which need not be the order of their timestamps.

A history is `Validated` if every transaction, when it was applied, had seen
the latest version of every key it touches, and was applied above every
timestamp read at so far. This is all that concurrency control has to enforce:

* the versions of each key are in ascending order (`Validated.ascending`), so
  per key, the two orders agree;
* no update is lost (`Validated.overwritten_le`);
* what a transaction sees of a key it touches, at its read timestamp, in the
  whole history, is what the transactions applied before it left there
  (`Validated.snapshot_eq_current`).

`snapshot H r` is the map seen at `r`, and `ReadsAt` says the same in terms of
the transaction with the greatest commit timestamp at or below `r`;
`current H` is the map left by applying the history in order.
-/

namespace Mvcc

open List

/-- A transaction: the timestamp it reads at, the one it commits at, the keys it
    writes, with their values (`none` for a delete), and the keys it validates
    besides. -/
structure Txn (K V T : Type*) where
  id : ℕ
  readTs : T
  commitTs : T
  writes : List ((_ : K) × Option V)
  reads : List K
  deriving DecidableEq

variable {K V T : Type*}

namespace Txn

/-- The transaction writes `k`. -/
def Writes (a : Txn K V T) (k : K) : Prop := k ∈ a.writes.keys

/-- The transaction validates `k`: it writes it, or declares having read it. -/
def Touches (a : Txn K V T) (k : K) : Prop := a.Writes k ∨ k ∈ a.reads

instance [DecidableEq K] (a : Txn K V T) (k : K) : Decidable (a.Writes k) :=
  inferInstanceAs (Decidable (k ∈ a.writes.keys))

instance [DecidableEq K] (a : Txn K V T) (k : K) : Decidable (a.Touches k) :=
  inferInstanceAs (Decidable (_ ∨ _))

/-- The transaction writes the value `v` (or a delete) to `k`. -/
def WritesValue [DecidableEq K] (a : Txn K V T) (k : K) (v : Option V) : Prop :=
  a.writes.dlookup k = some v

end Txn

variable [DecidableEq K]

theorem Txn.writes_iff {a : Txn K V T} {k : K} : a.Writes k ↔ ∃ v, a.WritesValue k v := by
  rw [Txn.Writes, ← dlookup_isSome, Option.isSome_iff_exists]
  rfl

theorem Txn.WritesValue.writes {a : Txn K V T} {k : K} {v : Option V} (h : a.WritesValue k v) :
    a.Writes k :=
  Txn.writes_iff.2 ⟨v, h⟩

theorem Txn.not_writes_iff {a : Txn K V T} {k : K} : ¬a.Writes k ↔ a.writes.dlookup k = none :=
  dlookup_eq_none.symm

/-- The versions of `k` in the history `H`, in the order in which they were applied. -/
def versions (H : List (Txn K V T)) (k : K) : List (Version T V) :=
  H.filterMap fun a => (a.writes.dlookup k).map (⟨a.commitTs, ·⟩)

variable {H P Q : List (Txn K V T)} {a b : Txn K V T} {k : K} {v : Option V}

@[simp] theorem versions_nil : versions ([] : List (Txn K V T)) k = [] := rfl

theorem versions_append : versions (P ++ Q) k = versions P k ++ versions Q k := filterMap_append ..

theorem versions_singleton_of_writesValue (h : a.WritesValue k v) :
    versions [a] k = [⟨a.commitTs, v⟩] := by
  simp [versions, show a.writes.dlookup k = some v from h]

theorem versions_singleton_of_not_writes (h : ¬a.Writes k) : versions [a] k = [] := by
  simp [versions, Txn.not_writes_iff.1 h]

theorem mem_versions {u : Version T V} :
    u ∈ versions H k ↔ ∃ a ∈ H, a.WritesValue k u.value ∧ a.commitTs = u.commitTs := by
  simp only [versions, mem_filterMap, Option.map_eq_some_iff, Txn.WritesValue]
  constructor
  · rintro ⟨a, ha, v, hv, rfl⟩
    exact ⟨a, ha, hv, rfl⟩
  · rintro ⟨a, ha, hv, hc⟩
    exact ⟨a, ha, u.value, hv, by rw [hc]⟩

theorem mem_versions_of_writes (ha : a ∈ H) (hk : a.WritesValue k v) :
    ⟨a.commitTs, v⟩ ∈ versions H k :=
  mem_versions.2 ⟨a, ha, hk, rfl⟩

variable [LinearOrder T] {r : T}

/-- A key has a version above `r` iff some transaction above `r` wrote it. -/
theorem newer_versions : Newer (versions H k) r ↔ ∃ a ∈ H, a.Writes k ∧ r < a.commitTs := by
  constructor
  · rintro ⟨u, hu, hr⟩
    obtain ⟨a, ha, hk, hc⟩ := mem_versions.1 hu
    exact ⟨a, ha, hk.writes, hc ▸ hr⟩
  · rintro ⟨a, ha, hk, hr⟩
    obtain ⟨v, hv⟩ := Txn.writes_iff.1 hk
    exact ⟨_, mem_versions_of_writes ha hv, hr⟩

/-! ## What is seen -/

/-- The map seen at `r`. -/
def snapshot (H : List (Txn K V T)) (r : T) (k : K) : Option V := visible (versions H k) r

/-- The map left by applying the history in order. -/
def current (H : List (Txn K V T)) (k : K) : Option V := (versions H k).getLast?.bind (·.value)

/-- `a` is the transaction with the greatest commit timestamp at or below `r`
    among those of the history `H` that write `k`. -/
structure IsNewest (H : List (Txn K V T)) (k : K) (r : T) (a : Txn K V T) : Prop where
  mem : a ∈ H
  writes : a.Writes k
  le : a.commitTs ≤ r
  max : ∀ b ∈ H, b.Writes k → b.commitTs ≤ r → b.commitTs ≤ a.commitTs

/-- A read of `k` at `r` gives `v`: the value written by the transaction with the
    greatest commit timestamp at or below `r` among those that write `k`; `none`
    if there is no such transaction (or if it deletes `k`). -/
def ReadsAt (H : List (Txn K V T)) (k : K) (r : T) (v : Option V) : Prop :=
  (∃ a, IsNewest H k r a ∧ a.WritesValue k v) ∨ ((∀ a ∈ H, a.Writes k → r < a.commitTs) ∧ v = none)

omit [LinearOrder T] in
@[simp] theorem current_nil : current ([] : List (Txn K V T)) k = none := rfl

omit [LinearOrder T] in
/-- A transaction overwrites the keys it writes, and leaves the others. -/
theorem current_append_singleton :
    current (H ++ [a]) k = (a.writes.dlookup k).getD (current H k) := by
  rw [current, versions_append]
  cases h : a.writes.dlookup k with
  | none =>
    rw [versions_singleton_of_not_writes (Txn.not_writes_iff.2 h), append_nil]
    rfl
  | some v =>
    rw [versions_singleton_of_writesValue h]
    simp

/-- Above all its timestamps, the map seen is the one the history left. -/
theorem snapshot_eq_current (h : ∀ a ∈ H, a.Writes k → a.commitTs ≤ r) :
    snapshot H r k = current H k := by
  rw [snapshot, visible, upTo_eq_self, current]
  intro u hu
  obtain ⟨a, ha, hk, hc⟩ := mem_versions.1 hu
  exact hc ▸ h a ha hk.writes

/-- Transactions above `r` are not seen at `r`. -/
theorem snapshot_append_of_lt (h : ∀ a ∈ Q, a.Writes k → r < a.commitTs) :
    snapshot (P ++ Q) r k = snapshot P r k := by
  rw [snapshot, visible, versions_append, upTo_append, upTo_eq_nil (c := versions Q k),
    append_nil, snapshot, visible]
  intro u hu
  obtain ⟨a, ha, hk, hc⟩ := mem_versions.1 hu
  exact hc ▸ h a ha hk.writes

/-- On ascending versions, what is read is what is seen. -/
theorem readsAt_iff (hasc : Ascending (versions H k)) : ReadsAt H k r v ↔ snapshot H r k = v := by
  constructor
  · rintro (⟨a, ha, hv⟩ | ⟨h, rfl⟩)
    · refine hasc.visible_eq (mem_versions_of_writes ha.mem hv) ha.le fun u hu hur => ?_
      obtain ⟨b, hb, hk, hc⟩ := mem_versions.1 hu
      exact hc ▸ ha.max b hb hk.writes (hc ▸ hur)
    · rw [snapshot, visible, upTo_eq_nil]
      · rfl
      · intro u hu
        obtain ⟨b, hb, hk, hc⟩ := mem_versions.1 hu
        exact hc ▸ h b hb hk.writes
  · rintro rfl
    rcases hasc.visible_cases r with ⟨u, hu, hur, hmax, hvis⟩ | ⟨h, hvis⟩
    · obtain ⟨a, ha, hk, hc⟩ := mem_versions.1 hu
      refine .inl ⟨a, ⟨ha, hk.writes, hc ▸ hur, fun b hb hbk hbr => ?_⟩, ?_⟩
      · obtain ⟨w, hw⟩ := Txn.writes_iff.1 hbk
        exact hc ▸ hmax _ (mem_versions_of_writes hb hw) hbr
      · rwa [snapshot, hvis]
    · refine .inr ⟨fun b hb hbk => ?_, hvis⟩
      obtain ⟨w, hw⟩ := Txn.writes_iff.1 hbk
      exact h _ (mem_versions_of_writes hb hw)

/-! ## Writers of a key -/

/-- The transactions of the history that write `k`. -/
def writers (H : List (Txn K V T)) (k : K) : List (Txn K V T) := H.filter fun a => a.Writes k

omit [LinearOrder T] in
/-- If every transaction that writes `k` writes a function of what it finds there,
    what is left there is the composition of these functions. -/
theorem current_eq_foldl {g : Txn K V T → Option V → Option V}
    (h : ∀ P a Q, H = P ++ a :: Q → a.Writes k → a.WritesValue k (g a (current P k))) :
    current H k = (writers H k).foldl (fun v a => g a v) none := by
  induction H using List.reverseRecOn with
  | nil => rfl
  | append_singleton H a ih =>
    have ih := ih fun P b Q hH => h P b (Q ++ [a]) (by rw [hH]; simp)
    rw [current_append_singleton, writers, filter_append]
    by_cases hk : a.Writes k
    · have hw : a.writes.dlookup k = some (g a (current H k)) := h H a [] rfl hk
      rw [hw, filter_singleton, decide_eq_true hk, ih]
      simp [writers]
    · rw [Txn.not_writes_iff.1 hk, filter_singleton, decide_eq_false hk, ih]
      simp [writers]

/-! ## Validated histories -/

/-- A history in which every transaction was validated when it was applied. -/
structure Validated (H : List (Txn K V T)) : Prop where
  /-- A transaction commits above the timestamp it reads at. -/
  lt : ∀ a ∈ H, a.readTs < a.commitTs
  /-- The commit timestamps are distinct. -/
  nodup : (H.map (·.commitTs)).Nodup
  /-- A transaction is applied above the timestamps read at before. -/
  fresh : H.Pairwise fun a b => a.readTs < b.commitTs
  /-- A transaction is applied having seen the latest versions of the keys it touches. -/
  seen : H.Pairwise fun a b => ∀ k, a.Writes k → b.Touches k → a.commitTs ≤ b.readTs

omit [DecidableEq K] in
theorem Validated.nil : Validated ([] : List (Txn K V T)) :=
  ⟨by simp, .nil, .nil, .nil⟩

omit [DecidableEq K] in
/-- Applying a validated transaction. -/
theorem Validated.append (h : Validated H) (hlt : a.readTs < a.commitTs)
    (hne : ∀ b ∈ H, b.commitTs ≠ a.commitTs) (hfresh : ∀ b ∈ H, b.readTs < a.commitTs)
    (hseen : ∀ k, a.Touches k → ∀ b ∈ H, b.Writes k → b.commitTs ≤ a.readTs) :
    Validated (H ++ [a]) where
  lt b hb := by
    rcases mem_append.1 hb with hb | hb
    · exact h.lt b hb
    · rw [mem_singleton.1 hb]; exact hlt
  nodup := by
    rw [map_append, nodup_append]
    refine ⟨h.nodup, nodup_singleton _, fun t ht u hu => ?_⟩
    obtain ⟨b, hb, rfl⟩ := mem_map.1 ht
    rw [mem_singleton.1 hu]
    exact hne b hb
  fresh := pairwise_append.2 ⟨h.fresh, pairwise_singleton _ _, fun b hb c hc => by
    rw [mem_singleton.1 hc]; exact hfresh b hb⟩
  seen := pairwise_append.2 ⟨h.seen, pairwise_singleton _ _, fun b hb c hc k hbk hck => by
    rw [mem_singleton.1 hc] at hck ⊢; exact hseen k hck b hb hbk⟩

omit [DecidableEq K] in
theorem Validated.of_append (h : Validated (P ++ Q)) : Validated P where
  lt a ha := h.lt a (mem_append_left _ ha)
  nodup := (nodup_append.1 (map_append (f := fun a : Txn K V T => a.commitTs) ▸ h.nodup)).1
  fresh := (pairwise_append.1 h.fresh).1
  seen := (pairwise_append.1 h.seen).1

omit [DecidableEq K] in
/-- Two transactions committed at the same timestamp are the same. -/
theorem Validated.eq_of_commitTs_eq (h : Validated H) (ha : a ∈ H) (hb : b ∈ H)
    (hab : a.commitTs = b.commitTs) : a = b :=
  inj_on_of_nodup_map h.nodup ha hb hab

/-- `a` can go before `b`: `b` has seen it, if it touches a key `a` writes, and it
    has not seen `b`, if it touches a key `b` writes. -/
def Precedes (a b : Txn K V T) : Prop :=
  (∀ k, a.Writes k → b.Touches k → a.commitTs ≤ b.readTs) ∧
    ∀ k, a.Touches k → b.Writes k → a.readTs < b.commitTs

omit [DecidableEq K] in
theorem Validated.pairwise_precedes (h : Validated H) : H.Pairwise Precedes :=
  (h.seen.and h.fresh).imp fun hab => ⟨hab.1, fun _ _ _ => hab.2⟩

/-- If the transactions that write a key are in order of timestamps, its versions are. -/
theorem ascending_of_pairwise
    (hH : H.Pairwise fun a b => a.Writes k → b.Writes k → a.commitTs < b.commitTs) :
    Ascending (versions H k) := by
  rw [Ascending, versions, pairwise_filterMap]
  refine hH.imp fun {a b} hab u hu w hw => ?_
  obtain ⟨v, hv, rfl⟩ := Option.map_eq_some_iff.1 hu
  obtain ⟨v', hv', rfl⟩ := Option.map_eq_some_iff.1 hw
  exact hab (Txn.writes_iff.2 ⟨v, hv⟩) (Txn.writes_iff.2 ⟨v', hv'⟩)

/-- In a list where every transaction precedes the next ones, the versions are ascending. -/
theorem ascending_of_precedes (hH : H.Pairwise Precedes)
    (hlt : ∀ a ∈ H, a.Writes k → a.readTs < a.commitTs) : Ascending (versions H k) :=
  ascending_of_pairwise <| hH.imp_of_mem fun _ hb hab hak hbk =>
    (hab.1 k hak (.inl hbk)).trans_lt (hlt _ hb hbk)

/-- Per key, the order of application is the order of timestamps. -/
theorem Validated.ascending (h : Validated H) (k : K) : Ascending (versions H k) :=
  ascending_of_precedes h.pairwise_precedes fun a ha _ => h.lt a ha

omit [DecidableEq K] in
/-- Transactions that write the same key are applied in order of timestamps. -/
theorem Validated.pairwise_writes (h : Validated H) (k : K) :
    H.Pairwise fun a b => a.Writes k → b.Writes k → a.commitTs < b.commitTs :=
  h.seen.imp_of_mem fun _ hb hab hak hbk => (hab k hak (.inl hbk)).trans_lt (h.lt _ hb)

/-- The transactions that write `k` are applied in order of timestamps. -/
theorem Validated.writers_sorted (h : Validated H) (k : K) :
    (writers H k).Pairwise fun a b => a.commitTs < b.commitTs :=
  List.pairwise_filter.2 ((h.pairwise_writes k).imp fun hab hak hbk =>
    hab (of_decide_eq_true hak) (of_decide_eq_true hbk))

theorem Validated.readsAt_iff (h : Validated H) : ReadsAt H k r v ↔ snapshot H r k = v :=
  Mvcc.readsAt_iff (h.ascending k)

omit [DecidableEq K] [LinearOrder T] in
/-- Of two transactions, one was applied before the other. -/
theorem exists_split (ha : a ∈ H) (hb : b ∈ H) (hne : a ≠ b) :
    (∃ P Q R, H = P ++ a :: (Q ++ b :: R)) ∨ ∃ P Q R, H = P ++ b :: (Q ++ a :: R) := by
  obtain ⟨P, Q, rfl⟩ := append_of_mem ha
  rcases mem_append.1 hb with hb | hb
  · obtain ⟨P, R, rfl⟩ := append_of_mem hb
    exact .inr ⟨P, R, Q, by simp⟩
  · obtain ⟨Q, R, rfl⟩ := append_of_mem ((mem_cons.1 hb).resolve_left hne.symm)
    exact .inl ⟨P, Q, R, rfl⟩

omit [DecidableEq K] in
/-- A transaction `b` applied after `a` has seen `a` if it touches a key `a` wrote. -/
theorem Validated.seen_of_split {R : List (Txn K V T)} (h : Validated (P ++ a :: (Q ++ b :: R)))
    (hak : a.Writes k) (hbk : b.Touches k) : a.commitTs ≤ b.readTs := by
  have := (pairwise_cons.1 (pairwise_append.1 h.seen).2.1).1 b (by simp)
  exact this k hak hbk

omit [DecidableEq K] in
/-- No lost update: of two transactions writing the same key, the one committed
    above has read at or above the other. -/
theorem Validated.overwritten_le (h : Validated H) (ha : a ∈ H) (hb : b ∈ H) (hak : a.Writes k)
    (hbk : b.Writes k) (hab : a.commitTs < b.commitTs) : a.commitTs ≤ b.readTs := by
  rcases exists_split ha hb (by rintro rfl; exact lt_irrefl _ hab) with
    ⟨P, Q, R, rfl⟩ | ⟨P, Q, R, rfl⟩
  · exact h.seen_of_split hak (.inl hbk)
  · -- had `b` been applied first, `a` would have read, and hence committed, above it
    have hba : b.commitTs ≤ a.readTs := h.seen_of_split hbk (.inl hak)
    exact absurd (hba.trans_lt (h.lt a ha)) (not_lt.2 hab.le)

/-! ## Orders of a history -/

/-- In such a list, what a transaction sees of a key it touches is what those
    before it left. -/
theorem snapshot_eq_current_of_precedes (hH : (P ++ a :: Q).Pairwise Precedes) (hk : a.Touches k)
    (hlt : a.Writes k → a.readTs < a.commitTs) :
    snapshot (P ++ a :: Q) a.readTs k = current P k := by
  rw [snapshot_append_of_lt, Mvcc.snapshot_eq_current]
  · -- the transactions before were seen
    exact fun b hb hbk => ((pairwise_append.1 hH).2.2 b hb a mem_cons_self).1 k hbk hk
  · -- those from `a` on were not
    intro b hb hbk
    rcases mem_cons.1 hb with rfl | hb
    · exact hlt hbk
    · exact ((pairwise_cons.1 (pairwise_append.1 hH).2.1).1 b hb).2 k hk hbk

/-- What is seen depends on which transactions wrote the key only, provided that
    its versions are ascending. -/
theorem snapshot_congr (hP : Ascending (versions P k)) (hQ : Ascending (versions Q k))
    (hmem : ∀ b, b.Writes k → (b ∈ P ↔ b ∈ Q)) : snapshot P r k = snapshot Q r k := by
  refine ((readsAt_iff hP).1 ?_)
  rcases (readsAt_iff hQ).2 (rfl : snapshot Q r k = snapshot Q r k) with ⟨a, ha, hv⟩ | ⟨hnone, hv⟩
  · exact .inl ⟨a, ⟨(hmem a ha.writes).2 ha.mem, ha.writes, ha.le,
      fun b hb hbk => ha.max b ((hmem b hbk).1 hb) hbk⟩, hv⟩
  · exact .inr ⟨fun b hb hbk => hnone b ((hmem b hbk).1 hb) hbk, hv⟩

/-- What a transaction sees, at its read timestamp, of a key it touches, is what
    the transactions applied before it left there. -/
theorem Validated.snapshot_eq_current (h : Validated (P ++ a :: Q)) (hk : a.Touches k) :
    snapshot (P ++ a :: Q) a.readTs k = current P k :=
  snapshot_eq_current_of_precedes h.pairwise_precedes hk fun _ => h.lt a (by simp)

end Mvcc
