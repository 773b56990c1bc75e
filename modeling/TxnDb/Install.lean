import Mathlib.Data.List.Flatten
import Mathlib.Data.List.Fold
import Mathlib.Data.List.MinMax
import TxnDb.Db

/-!
# Installing commits

Opening a database installs the commits found in its log in turn (`installAll`). What is then in
the chain of a key are its versions in the commits, in order (`chain_installAll`), and the highest
timestamp is that of the commits (`installAll_fst`).

What installing one commit keeps holds of the store in the end (`installAll_induction`).
-/

namespace TxnDb

variable {L commits : List RecoveredCommit} {commit : RecoveredCommit} {k : Key} {n : ℕ}
  {v : Version} {records : List Record}

/-- Installing commits in turn, with the highest of their timestamps. -/
def installAll (L : List RecoveredCommit) : ℕ × MemoryStore :=
  L.foldl (fun p commit =>
    (max p.1 commit.commitTs, p.2.installRecovered commit.commitTs commit.writes))
    (0, MemoryStore.new)

/-- The versions of `k` in the commits, in order. -/
def versionsIn (L : List RecoveredCommit) (k : Key) : List Version :=
  L.flatMap fun commit => (commit.writes.lookupAll k).map (⟨commit.commitTs, ·⟩)

/-- The commits of the records of a log. -/
def decodeAll (records : List Record) : Except TxnError (List RecoveredCommit) :=
  records.mapM fun entry => decodeCommit entry.data

theorem installAll_append_singleton : installAll (L ++ [commit]) =
    (max (installAll L).1 commit.commitTs,
      (installAll L).2.installRecovered commit.commitTs commit.writes) := by
  simp [installAll]

/-- What installing a commit keeps holds of the store, if it holds of an empty one. -/
theorem installAll_induction {motive : List RecoveredCommit → MemoryStore → Prop}
    (hnew : motive [] .new) (hinstall : ∀ {L commit store}, motive L store →
      motive (L ++ [commit]) (store.installRecovered commit.commitTs commit.writes))
    (L : List RecoveredCommit) : motive L (installAll L).2 := by
  induction L using List.reverseRecOn with
  | nil => exact hnew
  | append_singleton L commit ih =>
    rw [installAll_append_singleton]
    exact hinstall ih

/-- The versions of the commits are in the chains, in order. -/
theorem chain_installAll (L : List RecoveredCommit) (k : Key) :
    (installAll L).2.chain k = versionsIn L k := by
  refine installAll_induction (motive := fun L store => store.chain k = versionsIn L k)
    MemoryStore.chain_new (fun {L commit store} ih => ?_) L
  rw [MemoryStore.installRecovered_chain, ih, versionsIn, versionsIn, List.flatMap_append,
    List.flatMap_singleton]

theorem mem_versionsIn : v ∈ versionsIn L k ↔
    ∃ commit ∈ L, v.commitTs = commit.commitTs ∧ ⟨k, v.value⟩ ∈ commit.writes := by
  simp only [versionsIn, List.mem_flatMap, List.mem_map, List.mem_lookupAll]
  refine exists_congr fun commit => and_congr_right fun _ => ⟨?_, fun ⟨hts, hv⟩ => ?_⟩
  · rintro ⟨value, hv, rfl⟩
    exact ⟨rfl, hv⟩
  · exact ⟨v.value, hv, by rw [← hts]⟩

/-! ## The highest timestamp -/

theorem le_foldl_max {l : List ℕ} {m : ℕ} (hm : m ∈ l) : m ≤ l.foldl max 0 := by
  rw [List.foldl_eq_foldr]
  exact List.le_max_of_le hm le_rfl

theorem foldl_max_le {l : List ℕ} (h : ∀ m ∈ l, m ≤ n) : l.foldl max 0 ≤ n := by
  rw [List.foldl_eq_foldr]
  exact List.max_le_of_forall_le l n h

/-- The highest timestamp is computed along. -/
theorem installAll_fst (L : List RecoveredCommit) :
    (installAll L).1 = (L.map (·.commitTs)).foldl max 0 := by
  rw [List.foldl_map]
  induction L using List.reverseRecOn with
  | nil => rfl
  | append_singleton L commit ih =>
    rw [installAll_append_singleton, ih, List.foldl_append]
    rfl

theorem installAll_le (h : ∀ commit ∈ L, commit.commitTs ≤ n) : (installAll L).1 ≤ n := by
  rw [installAll_fst]
  exact foldl_max_le (List.forall_mem_map.2 h)

/-- No version installed is above the highest timestamp. -/
theorem le_installAll (hv : v ∈ (installAll L).2.chain k) : v.commitTs ≤ (installAll L).1 := by
  rw [chain_installAll] at hv
  obtain ⟨commit, hmem, hts, -⟩ := mem_versionsIn.1 hv
  rw [hts, installAll_fst]
  exact le_foldl_max (List.mem_map_of_mem hmem)

/-! ## Opening a log -/

/-- A log whose records decode opens on their commits, sorted and installed. -/
theorem openLog_installAll (h : decodeAll records = .ok commits) :
    Inner.openLog records = .ok ⟨(installAll (commits.insertionSort (·.commitTs ≤ ·.commitTs))).2,
      .recovered (installAll (commits.insertionSort (·.commitTs ≤ ·.commitTs))).1,
      some ⟨⟨records, []⟩⟩⟩ := by
  rw [decodeAll] at h
  simp only [Inner.openLog, CommitLog.openLog, h, bind, Except.bind, pure, Except.pure]
  rfl

end TxnDb
