import Mathlib.Data.List.Permutation
import TxnDb.Lib.ReadOnly
import TxnDb.Isolation

/-!
# Serializability

Serial orders of the transactions of a database in memory, in every run in
which those that write are serializable:

* `serializable_writers`: those that write are serial in the order in which
  their `try_commit` succeeded, and leave the map seen in the end;
* `serializable_of_unseparated`: with those that only read, they are serial in
  some order, unless a reader has seen one of two transactions, and not the
  other, that was applied before it, and has read a key it writes
  (`Unseparated`);
* `commit_order_iff`: what they read stands until they commit (`ReadsStand`) iff no
  transaction was applied before one with a lower timestamp that writes a key it
  has read (`InCommitOrder`), and then they are serial in the order of their timestamps.

A commit takes its timestamp before it is validated, and is not validated
against transactions that were applied before it, with a timestamp above: that
the order of timestamps is another than that of application is possible
(`crossedTrace`).
-/

namespace TxnDb

open Mvcc

variable {tr : List Event} {s : Sys} {h r : ℕ} {a b : Attempt} {k : Key}

/-- The transactions that write are serializable. -/
def SerializableWriters (tr : List Event) : Prop := ∀ h k v, .wrote h k v ∈ tr → Serializable tr h

/-! ## Committed transactions -/

namespace Reached

/-- A committed transaction replays from what is seen at its read timestamp. -/
theorem replays_session (hr : Reached tr s) (hno : ∀ L, .opened L ∉ tr) (hc : .committed a ∈ tr) :
    Replays (snapshot (history tr) a.readTs) (session tr a.id) := by
  obtain ⟨⟨kind, hb⟩, -⟩ := hr.committed hc
  exact (hr.replays (cycle_eq_self hno ▸ hb)).2

/-- A serializable transaction touches the keys it read from the store. -/
theorem touches (hr : Reached tr s) (hc : .committed a ∈ tr) (hs : Serializable tr a.id)
    (hk : ReadsFresh k (session tr a.id)) : a.Touches k := by
  by_cases hw : a.Writes k
  · exact .inl hw
  · exact .inr (((hr.programs hc).reads k).2 ⟨hs, hk, hw⟩)

/-- A committed transaction has written. -/
theorem exists_wrote (hr : Reached tr s) (hc : .committed a ∈ tr) :
    ∃ k v, .wrote a.id k v ∈ tr := by
  have hp := hr.programs hc
  obtain ⟨⟨k, v⟩, hkv⟩ := List.exists_mem_of_ne_nil _ hp.ne_nil
  have hk : a.Writes k := List.mem_keys_of_mem hkv
  obtain ⟨w, hw⟩ := Txn.writes_iff.1 hk
  obtain ⟨w', hw'⟩ := exists_write_of_buffered ((hp.writes k).trans hw)
  obtain ⟨e, he, hop⟩ := List.mem_filterMap.1 hw'
  cases e with
  | wrote h k' v' =>
    obtain ⟨rfl, -⟩ := Option.ite_none_right_eq_some.1 hop
    exact ⟨k', v', he⟩
  | got h =>
    obtain ⟨-, hop⟩ := Option.ite_none_right_eq_some.1 hop
    cases hop
  | _ => cases hop

theorem serializable (hr : Reached tr s) (hser : SerializableWriters tr) (hc : .committed a ∈ tr) :
    Serializable tr a.id :=
  have ⟨k, v, hw⟩ := hr.exists_wrote hc
  hser a.id k v hw

end Reached

/-! ## The order of application -/

/-- In every run in which the transactions that write are serializable, those that
    commit are serial in the order in which they are applied, and leave the map
    that is seen once nothing is in flight. -/
theorem serializable_writers (hrun : Run .new tr s) (hlt : allocations tr < 2 ^ 64)
    (hser : SerializableWriters tr) :
    Serial (fun _ => none) ((history tr).map fun a => session tr a.id) ∧
      (s.Quiescent → ∀ k, ((history tr).map fun a => session tr a.id).foldl execOps
        (fun _ => none) k = s.inner.store.get k s.inner.readTs) := by
  have hr := reached_of_run_new hrun hlt
  have hno := (log_eq_none_of_run hrun).2
  have hc : ∀ a ∈ history tr, .committed a ∈ tr := fun a => (mem_history hno).1
  have hbuf : ∀ a ∈ history tr, ∀ k, buffered (session tr a.id) k = a.writes.dlookup k :=
    fun a ha => (hr.programs (hc a ha)).writes
  refine ⟨serial_of_precedes hr.valid.pairwise_precedes (fun a ha _ _ => hr.valid.lt a ha) hbuf
    (fun a ha => hr.replays_session hno (hc a ha))
    (fun a ha k => hr.touches (hc a ha) (hr.serializable hser (hc a ha))), fun hq k => ?_⟩
  rw [foldl_execOps_eq_current hbuf, hr.get_quiescent hq]

theorem serializable_writers_counter : ∃ s, Run .new counterTrace s ∧
    Serial (fun _ => none) ((history counterTrace).map fun a => session counterTrace a.id) ∧
    ((history counterTrace).map fun a => session counterTrace a.id).foldl execOps
      (fun _ => none) [120] = s.inner.store.get [120] s.inner.readTs := by
  obtain ⟨s, hrun, hs⟩ := run_of_exec exec_counterRun
  have hser : SerializableWriters counterTrace := by
    intro h k v hw
    simp only [counterTrace, List.mem_cons, Event.wrote.injEq, reduceCtorEq, false_or] at hw
    rcases hw with ⟨rfl, -⟩ | ⟨rfl, -⟩ | ⟨rfl, -⟩ | hw
    · exact ⟨0, by decide⟩
    · exact ⟨1, by decide⟩
    · exact ⟨0, by decide⟩
    · exact absurd hw List.not_mem_nil
  obtain ⟨hserial, hleft⟩ := serializable_writers hrun (by decide) hser
  exact ⟨s, hrun, hserial, hleft (of_decide_eq_true (Prod.mk.inj hs).1) [120]⟩

/-! ## Read-only transactions -/

/-- The keys read by the operations. -/
def readKeys (ops : List (Op Key Value)) : List Key := ops.filterMap fun
  | .get k _ => some k
  | .write _ _ => none

/-- The transactions with nothing to write that committed. -/
def readers (tr : List Event) : List Attempt := tr.filterMap fun
  | .readOnly h r => some ⟨h, r, r, [], readKeys (session tr h)⟩
  | _ => none

/-- The transactions that committed, those with nothing to write included, are
    serial in some order. -/
def SerialInSomeOrder (tr : List Event) : Prop :=
  ∃ order : List ℕ, order.Perm ((history tr ++ readers tr).map (·.id)) ∧
    Serial (fun _ => none) (order.map (session tr))

/-- No transaction with nothing to write separates two transactions. -/
def Unseparated (tr : List Event) : Prop :=
  (history tr).Pairwise fun a b => ∀ h r, .readOnly h r ∈ tr → ¬Separates r a b

theorem mem_readers {x : Attempt} :
    x ∈ readers tr ↔ ∃ h r, .readOnly h r ∈ tr ∧ x = ⟨h, r, r, [], readKeys (session tr h)⟩ := by
  rw [readers, List.mem_filterMap]
  constructor
  · rintro ⟨e, he, hx⟩
    cases e with
    | readOnly h r => exact ⟨h, r, he, (Option.some.inj hx).symm⟩
    | _ => cases hx
  · rintro ⟨h, r, he, rfl⟩
    exact ⟨_, he, rfl⟩

theorem mem_readKeys_of_readsFresh {ops : List (Op Key Value)} (hk : ReadsFresh k ops) :
    k ∈ readKeys ops := by
  induction ops with
  | nil => exact hk.elim
  | cons op ops ih =>
    cases op with
    | get k' v =>
      rcases hk with rfl | hk
      · exact List.mem_cons_self
      · exact List.mem_cons_of_mem _ (ih hk)
    | write k' v => exact ih hk.2

/-! ## Crossed timestamps

Two serializable transactions, of which the first to be applied has the higher
timestamp, and has read a key that the second one writes; and a third one, that
only reads, and begins when the first two are done, or when only the second one
is. -/

/-- The transaction applied first: it reads `y`, and writes `x`. -/
def crossedFirst : Attempt := ⟨0, 0, 2, [⟨[120], some [1]⟩], [[121]]⟩

/-- The transaction applied next, with the lower timestamp: it writes `y`. -/
def crossedSecond : Attempt := ⟨1, 0, 1, [⟨[121], some [1]⟩], []⟩

def crossing : List Action :=
  [.begin .serializable, .begin .serializable, .get 0 [121], .put 0 [120] [1], .put 1 [121] [1],
    .commit 1 [⟨[121], some [1]⟩] [], .commit 0 [⟨[120], some [1]⟩] [[121]], .tryCommit 0,
    .tryCommit 1, .commitDone 1, .drop 1]

def crossingTrace : List Event :=
  [.began 0 .serializable 0, .began 1 .serializable 0, .got 0 0 [121] none false,
    .wrote 0 [120] (some [1]), .wrote 1 [121] (some [1]), .allocated crossedSecond,
    .allocated crossedFirst, .committed crossedFirst, .committed crossedSecond,
    .reported crossedSecond, .returned 1 (.ok 1)]

/-- The third transaction begins when only the second one is done. -/
def crossedTrace : List Event := crossingTrace ++
  [.began 2 .serializable 1, .got 2 1 [120] none false, .got 2 1 [121] (some [1]) false,
    .readOnly 2 1, .reported crossedFirst, .returned 0 (.ok 2), .returned 2 (.ok 1)]

/-- The third transaction begins when the first two are done. -/
def settledTrace : List Event := crossingTrace ++
  [.reported crossedFirst, .returned 0 (.ok 2), .began 2 .serializable 2,
    .got 2 2 [120] (some [1]) false, .got 2 2 [121] (some [1]) false, .readOnly 2 2,
    .returned 2 (.ok 2)]

theorem exec_crossed : (Trace.exec Sys.step .new (crossing ++ [.begin .serializable, .get 2 [120],
    .get 2 [121], .commit 2 [] [[120], [121]], .commitDone 0, .drop 0, .drop 2])).map
      (Prod.map id fun _ => ()) = some (crossedTrace, ()) := by
  decide +kernel

theorem exec_settled : (Trace.exec Sys.step .new (crossing ++ [.commitDone 0, .drop 0,
    .begin .serializable, .get 2 [120], .get 2 [121], .commit 2 [] [[120], [121]], .drop 2])).map
      (Prod.map id fun _ => ()) = some (settledTrace, ()) := by
  decide +kernel

/-- A read-only anomaly: three serializable transactions, serial in no order. -/
theorem read_only_anomaly : ∃ s, Run .new crossedTrace s ∧ allocations crossedTrace < 2 ^ 64 ∧
    (∀ h kind r, .began h kind r ∈ crossedTrace → kind = .serializable) ∧
    ¬SerialInSomeOrder crossedTrace := by
  obtain ⟨s, hrun, -⟩ := run_of_exec exec_crossed
  refine ⟨s, hrun, by decide, fun h kind r hb => ?_, ?_⟩
  · simp only [crossedTrace, crossingTrace, List.cons_append, List.nil_append, List.mem_cons,
      List.not_mem_nil, Event.began.injEq, reduceCtorEq, false_or, or_false] at hb
    rcases hb with ⟨-, rfl, -⟩ | ⟨-, rfl, -⟩ | ⟨-, rfl, -⟩ <;> rfl
  · rintro ⟨order, hperm, hserial⟩
    have hnone : ∀ order ∈ [0, 1, 2].permutations',
        ¬Serial (fun _ => none) (order.map (session crossedTrace)) := by
      decide +kernel
    exact hnone order (List.mem_permutations'.2 hperm) hserial

/-- In every run in which the transactions that write are serializable, and none
    that only reads separates two of them, those that commit are serial in some order. -/
theorem serializable_of_unseparated (hrun : Run .new tr s) (hlt : allocations tr < 2 ^ 64)
    (hser : SerializableWriters tr) (hsep : Unseparated tr) : SerialInSomeOrder tr := by
  have hr := reached_of_run_new hrun hlt
  have hno := (log_eq_none_of_run hrun).2
  have hc : ∀ a ∈ history tr, .committed a ∈ tr := fun a => (mem_history hno).1
  refine ⟨(serialOrder (history tr) (readers tr)).map (·.id), serialOrder_perm.map _, ?_⟩
  rw [List.map_map]
  refine serial_serialOrder hr.valid (fun x hx => ?_) (hsep.imp fun hab x hx => ?_)
    (fun a ha => ?_) (fun a ha => ?_) (fun a ha k hk => ?_)
  · obtain ⟨h, r, -, rfl⟩ := mem_readers.1 hx
    exact ⟨rfl, rfl⟩
  · obtain ⟨h, r, hro, rfl⟩ := mem_readers.1 hx
    exact hab h r hro
  all_goals rcases List.mem_append.1 ha with ha | ha
  · exact (hr.programs (hc a ha)).writes
  · obtain ⟨h, r, hro, rfl⟩ := mem_readers.1 ha
    exact hr.writesNothing hro
  · exact hr.replays_session hno (hc a ha)
  · obtain ⟨h, r, hro, rfl⟩ := mem_readers.1 ha
    obtain ⟨⟨kind, hb⟩, -⟩ := hr.readOnly hro
    exact (hr.replays (cycle_eq_self hno ▸ hb)).2
  · exact hr.touches (hc a ha) (hr.serializable hser (hc a ha)) hk
  · obtain ⟨h, r, hro, rfl⟩ := mem_readers.1 ha
    exact .inr (mem_readKeys_of_readsFresh hk)

/-- The transactions that crossed are serial with a reader that sees both. -/
theorem serializable_of_unseparated_settled : SerialInSomeOrder settledTrace := by
  obtain ⟨s, hrun, -⟩ := run_of_exec exec_settled
  refine serializable_of_unseparated hrun (by decide) (fun h k v hw => ?_) ?_
  · simp only [settledTrace, crossingTrace, List.cons_append, List.nil_append, List.mem_cons,
      List.not_mem_nil, Event.wrote.injEq, reduceCtorEq, false_or, or_false] at hw
    rcases hw with ⟨rfl, -⟩ | ⟨rfl, -⟩
    · exact ⟨0, by decide⟩
    · exact ⟨0, by decide⟩
  · change [crossedFirst, crossedSecond].Pairwise _
    refine List.pairwise_pair.2 fun h r hro hsep => ?_
    simp only [settledTrace, crossingTrace, List.cons_append, List.nil_append, List.mem_cons,
      List.not_mem_nil, Event.readOnly.injEq, reduceCtorEq, false_or, or_false] at hro
    -- the reader sees both
    obtain ⟨-, rfl⟩ := hro
    exact absurd hsep.2.1 (lt_irrefl _)

/-! ## The order of timestamps -/

/-- No transaction was applied before one with a lower timestamp that writes a key
    it has read. -/
def InCommitOrder (tr : List Event) : Prop :=
  (history tr).Pairwise fun a b => b.commitTs < a.commitTs → ∀ k ∈ a.reads, ¬b.Writes k

instance (tr : List Event) : Decidable (InCommitOrder tr) :=
  inferInstanceAs (Decidable ((history tr).Pairwise fun a b =>
    b.commitTs < a.commitTs → ∀ k ∈ a.reads, ¬b.Writes k))

/-- Between the timestamps a serializable transaction reads and commits at, no
    transaction commits that writes a key it reads. -/
def ReadsStand (tr : List Event) : Prop :=
  ∀ a ∈ history tr, Serializable tr a.id → ∀ r k v, .got a.id r k v false ∈ tr →
    ∀ b ∈ history tr, b.Writes k → ¬(a.readTs < b.commitTs ∧ b.commitTs < a.commitTs)

/-- In the order of timestamps, every serializable transaction replays from the map
    left by those before it. -/
def ReplaysInCommitOrder (tr : List Event) : Prop :=
  ∀ P a Q, (history tr).insertionSort (·.commitTs ≤ ·.commitTs) = P ++ a :: Q →
    Serializable tr a.id → Replays (current P) (session tr a.id)

theorem Reached.readsStand_iff (hr : Reached tr s) (hno : ∀ L, .opened L ∉ tr) :
    ReadsStand tr ↔ InCommitOrder tr := by
  constructor
  · intro hstand
    refine hr.valid.fresh.imp_of_mem fun {a b} ha hb hfresh hba k hk hbk => ?_
    obtain ⟨hs, hread, -⟩ := ((hr.programs ((mem_history hno).1 ha)).reads k).1 hk
    obtain ⟨r, v, hg⟩ := hr.fresh.1 hread
    exact hstand a ha hs r k v hg b hb hbk ⟨hfresh, hba⟩
  · rintro horder a ha hs r k v hg b hb hbk ⟨hab, hba⟩
    have htouch : a.Touches k := hr.touches ((mem_history hno).1 ha) hs (hr.fresh.2 ⟨r, v, hg⟩)
    rcases exists_split ha hb (by rintro rfl; exact lt_irrefl _ hba) with
      ⟨P, Q, R, hH⟩ | ⟨P, Q, R, hH⟩
    · -- `b` was applied after `a`
      have hpair : ∀ {S : Attempt → Attempt → Prop}, (history tr).Pairwise S → S a b := by
        intro S hS
        rw [hH] at hS
        exact (List.pairwise_cons.1 (List.pairwise_append.1 hS).2.1).1 b (by simp)
      rcases htouch with hak | hk
      · exact absurd (hpair (hr.valid.pairwise_writes k) hak hbk) (not_lt.2 hba.le)
      · exact hpair horder hba k hk hbk
    · -- `b` was applied before `a`, which has seen it
      have hvalid : Validated (P ++ b :: (Q ++ a :: R)) := hH ▸ hr.valid
      exact absurd (hvalid.seen_of_split hbk htouch) (not_le.2 hab)

theorem Reached.replaysInCommitOrder (hr : Reached tr s) (hno : ∀ L, .opened L ∉ tr)
    (hstand : ReadsStand tr) : ReplaysInCommitOrder tr := by
  intro P a Q hsorted hs
  have hperm : (P ++ a :: Q).Perm (history tr) := hsorted ▸ List.perm_insertionSort _ _
  have hsort : (P ++ a :: Q).Pairwise fun b c => b.commitTs < c.commitTs :=
    hsorted ▸ List.pairwise_lt_insertionSort hr.valid.nodup
  have ha : a ∈ history tr := hperm.subset (by simp)
  refine replays_of_sorted hr.valid hperm hsort
    (hr.replays_session hno ((mem_history hno).1 ha)) fun b hb k hk hbk => ?_
  obtain ⟨r, v, hg⟩ := hr.fresh.1 hk
  have hba : b.commitTs < a.commitTs :=
    (List.pairwise_append.1 hsort).2.2 b hb a List.mem_cons_self
  by_contra hab
  exact hstand a ha hs r k v hg b (hperm.subset (by simp [hb])) hbk ⟨not_le.1 hab, hba⟩

/-- In every run, no transaction writes a key that a serializable transaction has
    read, between the timestamps it reads and commits at, iff no transaction was
    applied before one with a lower timestamp that writes a key it has read; and the
    serializable transactions then replay in the order of timestamps. -/
theorem commit_order_iff (hrun : Run .new tr s) (hlt : allocations tr < 2 ^ 64) :
    (ReadsStand tr ↔ InCommitOrder tr) ∧ (InCommitOrder tr → ReplaysInCommitOrder tr) := by
  have hr := reached_of_run_new hrun hlt
  have hno := (log_eq_none_of_run hrun).2
  have hiff := hr.readsStand_iff hno
  exact ⟨hiff, fun horder => hr.replaysInCommitOrder hno (hiff.2 horder)⟩

theorem commit_order_iff_counter : InCommitOrder counterTrace ∧
    ReplaysInCommitOrder counterTrace := by
  obtain ⟨s, hrun, -⟩ := run_of_exec exec_counterRun
  have horder : InCommitOrder counterTrace := by decide
  exact ⟨horder, (commit_order_iff hrun (by decide)).2 horder⟩

/-- A serializable transaction that commits at `2` has not read what a transaction
    that commits at `1` writes. -/
theorem reads_overwritten : ∃ s, Run .new crossedTrace s ∧ allocations crossedTrace < 2 ^ 64 ∧
    ¬ReadsStand crossedTrace ∧ ¬ReplaysInCommitOrder crossedTrace := by
  obtain ⟨s, hrun, -⟩ := run_of_exec exec_crossed
  refine ⟨s, hrun, by decide, fun hstand => ?_, fun hrep => ?_⟩
  · exact hstand crossedFirst (by decide) ⟨0, by decide⟩ 0 [121] none (by decide) crossedSecond
      (by decide) (by decide) (by decide)
  · have hfirst := hrep [crossedSecond] crossedFirst [] (by decide) ⟨0, by decide⟩
    exact absurd hfirst (by decide)

end TxnDb
