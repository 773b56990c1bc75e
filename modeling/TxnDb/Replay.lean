import Mathlib.Data.Finset.Max
import TxnDb.Contract
import TxnDb.Format
import TxnDb.Recovery

/-!
# The order of the log, and of the writes

Opening a database sorts the commits it finds in its log, and installs them in
turn. What is then in the chain of a key are its versions in the commits, in order
(`chain_installAll`), which depend neither on the order of the records in the log
nor on that of the writes of distinct keys in a record:

* `replay_order`: whatever the order of the records, with distinct timestamps,
  what is read is what was written last (`LastWrite`);
* `batch_order`: whatever the order of the batch of a commit, it has the same
  result, it leaves the same chains, and its record is replayed as the same
  transaction.
-/

namespace TxnDb

open Mvcc

variable {L commits : List RecoveredCommit} {commit : RecoveredCommit} {k : Key} {r : ℕ}
  {value : Option Value} {records : List Record} {inner : Inner}

/-- `value` is what the commits wrote last to `k` at or below `r`: what the one with the
    greatest timestamp, of those that write `k`, wrote last, or `none` if there is none. -/
def LastWrite (commits : List RecoveredCommit) (k : Key) (r : ℕ) (value : Option Value) : Prop :=
  (∃ commit ∈ commits, commit.commitTs ≤ r ∧
    (∀ other ∈ commits, other.commitTs ≤ r → k ∈ other.writes.keys →
      other.commitTs ≤ commit.commitTs) ∧
    (commit.writes.lookupAll k).getLast? = some value) ∨
  ((∀ commit ∈ commits, commit.commitTs ≤ r → k ∉ commit.writes.keys) ∧ value = none)

/-! ## Installing commits -/

/-- The versions of commits in ascending order of timestamps are in ascending order, those
    of one commit having the same. -/
theorem sorted_versionsIn (hL : L.Pairwise fun a b => a.commitTs < b.commitTs) (k : Key) :
    Sorted (versionsIn L k) := by
  refine List.pairwise_flatMap.2 ⟨fun commit _ => ?_, hL.imp fun {a b} hab u hu v hv => ?_⟩
  · exact List.pairwise_map.2 (List.pairwise_of_forall fun _ _ => le_rfl)
  · obtain ⟨_, _, rfl⟩ := List.mem_map.1 hu
    obtain ⟨_, _, rfl⟩ := List.mem_map.1 hv
    exact hab.le

/-- What is seen at `r` is what was written last. -/
theorem visible_versionsIn (hL : L.Pairwise fun a b => a.commitTs < b.commitTs)
    (h : LastWrite L k r value) : visible (versionsIn L k) r = value := by
  rcases h with ⟨commit, hmem, hr, hmax, hlast⟩ | ⟨hnone, rfl⟩
  · obtain ⟨P, Q, rfl⟩ := List.append_of_mem hmem
    -- of the commits after it, none writes the key at or below `r`
    have hlater : ∀ v ∈ versionsIn Q k, r < v.commitTs := fun v hv => by
      obtain ⟨other, ho, hts, hw⟩ := mem_versionsIn.1 hv
      by_contra hle
      have hlt := List.rel_of_pairwise_cons (List.pairwise_append.1 hL).2.1 ho
      exact absurd (hmax other (by simp [ho]) (hts ▸ not_lt.1 hle) (List.mem_keys_of_mem hw))
        (not_le.2 hlt)
    have hsame : ∀ v ∈ (commit.writes.lookupAll k).map fun x : Option Value =>
        (⟨commit.commitTs, x⟩ : Version), v.commitTs ≤ r := fun v hv => by
      obtain ⟨_, _, rfl⟩ := List.mem_map.1 hv
      exact hr
    have hsplit : versionsIn (P ++ commit :: Q) k = versionsIn P k ++
        ((commit.writes.lookupAll k).map (⟨commit.commitTs, ·⟩) ++ versionsIn Q k) := by
      simp only [versionsIn, List.flatMap_append, List.flatMap_cons]
    -- the last of its own versions is seen, those after being above `r`
    rw [hsplit, visible, upTo_append, upTo_append, upTo_eq_self hsame, upTo_eq_nil hlater,
      List.append_nil, List.getLast?_append, List.getLast?_map, hlast]
    rfl
  · rw [visible, upTo_eq_nil fun v hv => ?_]
    · rfl
    · obtain ⟨commit, hmem, hts, hw⟩ := mem_versionsIn.1 hv
      by_contra hle
      exact hnone commit hmem (hts ▸ not_lt.1 hle) (List.mem_keys_of_mem hw)

/-- Something was written last to every key, maybe nothing. -/
theorem exists_lastWrite (commits : List RecoveredCommit) (k : Key) (r : ℕ) :
    ∃ value, LastWrite commits k r value := by
  by_cases hex : ∃ commit ∈ commits, commit.commitTs ≤ r ∧ k ∈ commit.writes.keys
  · obtain ⟨commit, hmem, hr, hk⟩ := hex
    -- of the commits that write the key, the one with the greatest timestamp
    obtain ⟨last, hlast, hmax⟩ := Finset.exists_max_image
      (commits.filter fun c => c.commitTs ≤ r ∧ k ∈ c.writes.keys).toFinset (·.commitTs)
      ⟨commit, by simp [hmem, hr, hk]⟩
    simp only [List.mem_toFinset, List.mem_filter, decide_eq_true_eq] at hlast hmax
    obtain ⟨hmem, hr, hk⟩ := hlast
    obtain ⟨x, hx⟩ := List.exists_of_mem_keys hk
    obtain ⟨value, hvalue⟩ := Option.isSome_iff_exists.1
      (List.getLast?_isSome.2 (List.ne_nil_of_mem (List.mem_lookupAll.2 hx)))
    exact ⟨value, .inl ⟨last, hmem, hr, fun other ho hor hok => hmax other ⟨ho, hor, hok⟩, hvalue⟩⟩
  · exact ⟨none, .inr ⟨fun commit hmem hr hk => hex ⟨commit, hmem, hr, hk⟩, rfl⟩⟩

/-! ## Opening a log -/

/-- A log whose records decode opens on their commits, sorted. -/
theorem openLog_eq (h : decodeAll records = .ok commits) :
    Inner.openLog records = .ok ⟨(installAll (commits.insertionSort (·.commitTs ≤ ·.commitTs))).2,
      .recovered ((commits.map (·.commitTs)).foldl max 0), some ⟨⟨records, []⟩⟩⟩ := by
  have hsort := (commits.perm_insertionSort (·.commitTs ≤ ·.commitTs)).map (·.commitTs)
  rw [← hsort.foldl_eq, ← installAll_fst]
  exact openLog_installAll h

/-- What is computed of each element is computed on the list. -/
theorem mapM_of_forall₂ {α β : Type} {f : α → Except TxnError β} {l : List α} {ys : List β}
    (h : List.Forall₂ (fun x y => f x = .ok y) l ys) : l.mapM f = .ok ys := by
  induction h with
  | nil => rfl
  | cons hx _ ih =>
    rw [List.mapM_cons, hx, ih]
    rfl

/-- The records in another order decode to the commits in another order. -/
theorem decodeAll_perm {records' : List Record} (h : decodeAll records = .ok commits)
    (hperm : records'.Perm records) :
    ∃ commits', decodeAll records' = .ok commits' ∧ commits'.Perm commits := by
  obtain ⟨commits', hdecode, hperm'⟩ := List.perm_comp_forall₂ hperm (forall₂_of_mapM h)
  exact ⟨commits', mapM_of_forall₂ hdecode, hperm'⟩

/-- The order of the log does not matter: with distinct timestamps, what is read is what
    was written last, the chains are in ascending order, the last timestamp committed is
    the highest one, and the database is the same for every order of the records. -/
theorem replay_order (hdecode : decodeAll records = .ok commits)
    (hnd : (commits.map (·.commitTs)).Nodup) : ∃ inner, Inner.openLog records = .ok inner ∧
      (∀ k r value, inner.store.get k r = value ↔ LastWrite commits k r value) ∧
      (∀ k, Sorted (inner.store.chain k)) ∧
      inner.lastCommitted = (commits.map (·.commitTs)).foldl max 0 ∧
      ∀ records', records'.Perm records → ∃ inner', Inner.openLog records' = .ok inner' ∧
        inner'.store = inner.store ∧ inner'.oracle = inner.oracle := by
  have hlt := List.pairwise_lt_insertionSort hnd
  have hperm := commits.perm_insertionSort (·.commitTs ≤ ·.commitTs)
  have hlast : ∀ {k r value}, LastWrite commits k r value →
      LastWrite (commits.insertionSort (·.commitTs ≤ ·.commitTs)) k r value := fun h => by
    simpa only [LastWrite, List.mem_insertionSort] using h
  refine ⟨_, openLog_eq hdecode, fun k r value => ?_, fun k => ?_, rfl, fun records' hrec => ?_⟩
  · have hsorted := sorted_versionsIn hlt k
    have hget : ∀ {value}, LastWrite commits k r value →
        (installAll (commits.insertionSort (·.commitTs ≤ ·.commitTs))).2.get k r = value :=
      fun h => by
        rw [MemoryStore.get_eq (chain_installAll _ k ▸ hsorted), chain_installAll,
          visible_versionsIn hlt (hlast h)]
    -- there is a last write, which is what is read
    refine ⟨fun h => ?_, hget⟩
    obtain ⟨value', hvalue⟩ := exists_lastWrite commits k r
    rwa [← h, hget hvalue]
  · rw [chain_installAll]
    exact sorted_versionsIn hlt k
  · obtain ⟨commits', hdecode', hperm'⟩ := decodeAll_perm hdecode hrec
    refine ⟨_, openLog_eq hdecode', ?_, ?_⟩
    · rw [List.insertionSort_eq_of_perm hnd hperm'.symm]
    · rw [(hperm'.map _).foldl_eq]

/-- Two records out of order, the second of which has a key twice. -/
theorem replay_order_repeated : ∃ inner,
    Inner.openLog [⟨0, encodeForLog 2 [⟨[121], none⟩]⟩,
        ⟨1, encodeForLog 1 [⟨[120], some [1]⟩, ⟨[121], some [1]⟩, ⟨[120], some [2]⟩]⟩] =
      .ok inner ∧
      inner.store.get [120] 2 = some [2] ∧ inner.store.get [121] 1 = some [1] ∧
      inner.store.get [121] 2 = none ∧ inner.lastCommitted = 2 := by
  have hdecode : decodeAll [⟨0, encodeForLog 2 [⟨[121], none⟩]⟩,
      ⟨1, encodeForLog 1 [⟨[120], some [1]⟩, ⟨[121], some [1]⟩, ⟨[120], some [2]⟩]⟩] =
      .ok [⟨2, [⟨[121], none⟩]⟩,
        ⟨1, [⟨[120], some [1]⟩, ⟨[121], some [1]⟩, ⟨[120], some [2]⟩]⟩] :=
    mapM_of_forall₂ (.cons (decodeCommit_encodeForLog (by decide) (by decide))
      (.cons (decodeCommit_encodeForLog (by decide) (by decide)) .nil))
  obtain ⟨inner, hopen, hget, -, hread, -⟩ := replay_order hdecode (by decide)
  refine ⟨inner, hopen, ?_, ?_, ?_, hread⟩
  · exact (hget _ _ _).2 (.inl ⟨_, List.mem_cons_of_mem _ List.mem_cons_self,
      by decide, by simp, rfl⟩)
  · exact (hget _ _ _).2 (.inl ⟨_, List.mem_cons_of_mem _ List.mem_cons_self,
      by decide, by simp, rfl⟩)
  · exact (hget _ _ _).2 (.inl ⟨_, List.mem_cons_self, by decide, by simp, rfl⟩)

/-! ## The order of a batch -/

/-- What a commit installs: the values it writes to each key, at its timestamp. -/
def RecoveredCommit.installs (commit : RecoveredCommit) : ℕ × (Key → List (Option Value)) :=
  (commit.commitTs, commit.writes.lookupAll)

/-- The versions of commits are those of what they install. -/
theorem versionsIn_congr {L' : List RecoveredCommit}
    (h : L'.map RecoveredCommit.installs = L.map RecoveredCommit.installs) (k : Key) :
    versionsIn L' k = versionsIn L k := by
  have hmap : ∀ L : List RecoveredCommit, versionsIn L k =
      (L.map RecoveredCommit.installs).flatMap fun p => (p.2 k).map (⟨p.1, ·⟩) := fun L => by
    rw [List.flatMap_map]
    rfl
  rw [hmap, hmap, h]

/-- Sorting the commits goes by what they install. -/
theorem map_installs_insertionSort (L : List RecoveredCommit) :
    (L.insertionSort (·.commitTs ≤ ·.commitTs)).map RecoveredCommit.installs =
      (L.map RecoveredCommit.installs).insertionSort fun p q => p.1 ≤ q.1 :=
  List.map_insertionSort _ _ _ _ fun _ _ _ _ => Iff.rfl

/-- Logs of commits that install the same open to the same chains. -/
theorem openLog_congr {records' : List Record} {commits' : List RecoveredCommit}
    (h : decodeAll records = .ok commits) (h' : decodeAll records' = .ok commits')
    (hinstalls : commits'.map RecoveredCommit.installs = commits.map RecoveredCommit.installs) :
    ∃ inner inner', Inner.openLog records = .ok inner ∧ Inner.openLog records' = .ok inner' ∧
      (∀ k, inner'.store.chain k = inner.store.chain k) ∧ inner'.readTs = inner.readTs := by
  refine ⟨_, _, openLog_eq h, openLog_eq h', fun k => ?_, ?_⟩
  · rw [chain_installAll, chain_installAll]
    refine versionsIn_congr ?_ k
    rw [map_installs_insertionSort, map_installs_insertionSort, hinstalls]
  · have hts : ∀ L : List RecoveredCommit,
        L.map (·.commitTs) = (L.map RecoveredCommit.installs).map (·.1) := fun L => by
      rw [List.map_map]
      rfl
    change (commits'.map (·.commitTs)).foldl max 0 = (commits.map (·.commitTs)).foldl max 0
    rw [hts, hts, hinstalls]

variable {s : MemoryStore} {c : ℕ} {writes writes' : List WriteEntry} {reads reads' : List Key}

/-- The lengths of writes fit in any order. -/
theorem Fits.perm (h : Fits writes) (hw : writes'.Perm writes) : Fits writes' :=
  ⟨hw.length_eq ▸ h.1, fun e he => h.2 e (hw.subset he)⟩

/-- A record among others decodes with them. -/
theorem decodeAll_insert {pre post : List Record} {before after : List RecoveredCommit}
    (entry : Record) (hpre : decodeAll pre = .ok before) (hpost : decodeAll post = .ok after)
    (h : decodeCommit entry.data = .ok commit) :
    decodeAll (pre ++ entry :: post) = .ok (before ++ commit :: after) :=
  mapM_of_forall₂ (List.rel_append (forall₂_of_mapM hpre) (.cons h (forall₂_of_mapM hpost)))

/-- The order of the batch of a commit, and of the keys it validates, does not matter:
    whatever it is, the commit succeeds or is in conflict, it leaves the same chains, and
    its record, anywhere in a log, is replayed to a database that reads the same. -/
theorem batch_order (s : MemoryStore) (r : ℕ) (hc : c < 2 ^ 64) (hnd : writes.NodupKeys)
    (hw : writes'.Perm writes) (hr : reads'.Perm reads) :
    s.SameCommit r c writes writes' reads reads' ∧
    (Fits writes → decodeCommit (encodeForLog c writes) = .ok ⟨c, writes⟩ ∧
      decodeCommit (encodeForLog c writes') = .ok ⟨c, writes'⟩ ∧
      ∀ owner pre post before after, decodeAll pre = .ok before → decodeAll post = .ok after →
        ∃ inner inner',
          Inner.openLog (pre ++ ⟨owner, encodeForLog c writes⟩ :: post) = .ok inner ∧
          Inner.openLog (pre ++ ⟨owner, encodeForLog c writes'⟩ :: post) = .ok inner' ∧
          (∀ k r, inner'.store.get k r = inner.store.get k r) ∧
          inner'.readTs = inner.readTs) := by
  have hlookup : ∀ k, writes'.lookupAll k = writes.lookupAll k := fun k =>
    (List.perm_lookupAll k hnd hw.symm).symm
  constructor
  · exact s.sameCommit_of_keys r c (fun k => ((hw.map _).append hr).mem_iff.symm) hlookup
  · intro hfit
    have hdecode := decodeCommit_encodeForLog hc hfit
    have hdecode' := decodeCommit_encodeForLog hc (hfit.perm hw)
    refine ⟨hdecode, hdecode', fun owner pre post before after hpre hpost => ?_⟩
    obtain ⟨inner, inner', hopen, hopen', hchain, hread⟩ := openLog_congr
      (decodeAll_insert ⟨owner, _⟩ hpre hpost hdecode)
      (decodeAll_insert ⟨owner, _⟩ hpre hpost hdecode') (by
        rw [List.map_append, List.map_append, List.map_cons, List.map_cons,
          RecoveredCommit.installs, RecoveredCommit.installs, funext hlookup])
    refine ⟨inner, inner', hopen, hopen', fun k r => ?_, hread⟩
    rw [MemoryStore.get_eq_visibleValue, MemoryStore.get_eq_visibleValue, hchain]

/-- A record of two keys, in either order. -/
theorem batch_order_swapped : ∃ inner inner',
    Inner.openLog [⟨0, encodeForLog 1 [⟨[120], none⟩, ⟨[121], some [2]⟩]⟩] = .ok inner ∧
      Inner.openLog [⟨0, encodeForLog 1 [⟨[121], some [2]⟩, ⟨[120], none⟩]⟩] = .ok inner' ∧
      (∀ k r, inner'.store.get k r = inner.store.get k r) ∧ inner'.readTs = inner.readTs := by
  obtain ⟨-, hreplay⟩ := @batch_order 1 [⟨[120], none⟩, ⟨[121], some [2]⟩]
    [⟨[121], some [2]⟩, ⟨[120], none⟩] [] [] MemoryStore.new 0 (by decide) (by simp)
    (.swap _ _ _) (.refl [])
  exact (hreplay (by decide)).2.2 0 [] [] [] [] rfl rfl

end TxnDb
