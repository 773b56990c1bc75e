import TxnDb.Calls
import TxnDb.Format
import TxnDb.Isolation

/-!
# A quiet database

When no commit is in flight, the watermark has caught up with every version of every chain,
whatever happened before (`Bounded`): conflicts and failures leave no timestamp behind. So what is
read next are the last versions (`lastValue`).

Nothing is asked of the chains but that their versions have timestamps handed out, so that this
holds from any log that opens.
-/

namespace TxnDb

open Mvcc

variable {tr : List Event} {s s' t : Sys} {h r w N : ℕ} {e : Event} {a : Attempt} {k : Key}
  {c : List Version} {store : MemoryStore}

/-! ## The last versions -/

/-- The value of the last version of a chain. -/
def lastValue (c : List Version) : Option Value := c.getLast?.bind (·.value)

/-- What garbage collection leaves of a chain is of its versions, and ends as it did. -/
theorem retainChain_subset (w : ℕ) (c : List Version) :
    (retainChain w c).1.getD [] ⊆ c ∧ lastValue ((retainChain w c).1.getD []) = lastValue c := by
  have hle := Search.partitionPoint_le_length (fun v : Version => decide (v.commitTs ≤ w)) c
  simp only [retainChain]
  generalize Search.partitionPoint c (fun v : Version => decide (v.commitTs ≤ w)) = n at hle
  -- what is dropped first is not the whole chain
  have hkept : (if 1 < n then c.drop (n - 1) else c) ⊆ c ∧
      lastValue (if 1 < n then c.drop (n - 1) else c) = lastValue c := by
    split_ifs with hn
    · refine ⟨List.drop_subset _ _, ?_⟩
      rw [lastValue, List.getLast?_drop, if_neg (by omega)]
      rfl
    · exact ⟨List.Subset.refl _, rfl⟩
  generalize (if 1 < n then c.drop (n - 1) else c) = kept at hkept
  rcases kept with _ | ⟨v, _ | ⟨v', kept⟩⟩
  · exact hkept
  · by_cases hdead : v.commitTs ≤ w ∧ v.value = none
    · rw [← hkept.2]
      simp only [hdead, and_self, if_true]
      exact ⟨List.nil_subset _, hdead.2.symm⟩
    · simp only [hdead, if_false]
      exact hkept
  · exact hkept

namespace MemoryStore

/-- A reader at or above all versions of a key reads the last one. -/
theorem get_eq_lastValue (hle : ∀ v ∈ store.chain k, v.commitTs ≤ r) :
    store.get k r = lastValue (store.chain k) := by
  have hpart : Search.Partitioned (fun v : Version => decide (v.commitTs ≤ r)) (store.chain k) :=
    List.pairwise_of_forall_mem_list fun v hv _ _ _ => decide_eq_true (hle v hv)
  rw [get_eq_visibleValue, visibleValue_of_partitioned hpart, visible, upTo_eq_self hle, lastValue]

/-- Nothing is in conflict at or above all versions. -/
theorem conflict?_eq_none (hle : ∀ k, ∀ v ∈ store.chain k, v.commitTs ≤ r)
    (writes : List WriteEntry) (reads : List Key) : store.conflict? r writes reads = none := by
  refine List.find?_eq_none.2 fun k _ => ?_
  rw [newerThan, Option.bind_some]
  cases hlast : (store.chain k).getLast? with
  | none => exact Bool.false_ne_true
  | some v =>
    have hv := hle k v (List.mem_of_getLast? hlast)
    simpa using hv

theorem pruneShard_subset {i : ℕ} (hi : i < store.shards.length) (w : ℕ) (k : Key) :
    (store.pruneShard w i).1.chain k ⊆ store.chain k ∧
      lastValue ((store.pruneShard w i).1.chain k) = lastValue (store.chain k) := by
  rw [pruneShard, chain_modifyChains hi]
  split_ifs with heq
  · rw [AList.lookup_retain, chain, heq]
    cases (store.chains (store.shardOf k)).lookup k with
    | none => exact ⟨List.Subset.refl _, rfl⟩
    | some c => exact retainChain_subset w c
  · exact ⟨List.Subset.refl _, rfl⟩

end MemoryStore

/-! ## What is in the store -/

/-- A database just opened, with no handle: a new one in memory, or one on a log. -/
def Sys.Opened (s : Sys) : Prop :=
  s = .new ∨ ∃ records inner, Inner.openLog records = .ok inner ∧ s = ⟨inner, [], []⟩

/-- The oracle has handed out the timestamps up to `N`, and the versions are at those. -/
structure Bounded (N : ℕ) (s : Sys) : Prop extends Coordinated s N where
  versions_le : ∀ k, ∀ v ∈ s.inner.store.chain k, v.commitTs ≤ N

/-- A step that commits nothing leaves the last versions, and adds none. -/
theorem Step.chain_subset (hstep : Step s e s') (hc : ∀ a, e ≠ .committed a)
    (hopen : ∀ L, e ≠ .opened L) (k : Key) :
    s'.inner.store.chain k ⊆ s.inner.store.chain k ∧
      lastValue (s'.inner.store.chain k) = lastValue (s.inner.store.chain k) := by
  cases hstep with
  | committed => exact absurd rfl (hc _)
  | pruned hg hlt => exact MemoryStore.pruneShard_subset hlt _ k
  | opened => exact absurd rfl (hopen _)
  | _ => exact ⟨List.Subset.refl _, rfl⟩

/-- A commit appends its writes. -/
theorem Step.chain_committed (hstep : Step s (.committed a) s') (k : Key) :
    s'.inner.store.chain k =
      s.inner.store.chain k ++ (a.writes.lookupAll k).map (⟨a.commitTs, ·⟩) := by
  cases hstep with
  | committed hh hok =>
    rcases s.inner.store.tryCommit_commits a.readTs a.commitTs a.writes a.reads with
      ⟨_, _, herr⟩ | ⟨store, -, hok', -, hchain⟩
    · rw [hok] at herr
      cases herr
    · obtain rfl := Except.ok.inj (hok.symm.trans hok')
      exact hchain k

namespace Bounded

theorem step (hb : Bounded N s) (hstep : Step s e s') (hlt : N + allocations [e] < 2 ^ 64)
    (hopen : ∀ L, e ≠ .opened L) : Bounded (N + allocations [e]) s' := by
  have hN : e.allocates → N + 1 < 2 ^ 64 := fun he => by
    rwa [allocations, List.countP_singleton, if_pos he] at hlt
  have hissue : e.issue N = N + allocations [e] := hstep.issue_eq hb.tracks.nextTs hlt hopen
  refine ⟨hissue ▸ (hb.toCoordinated.step hstep hN hopen).2, fun k v hv => ?_⟩
  by_cases hc : ∃ a, e = .committed a
  · obtain ⟨a, rfl⟩ := hc
    rw [hstep.chain_committed] at hv
    rcases List.mem_append.1 hv with hv | hv
    · exact hb.versions_le k v hv
    · obtain ⟨_, -, rfl⟩ := List.mem_map.1 hv
      cases hstep with
      | @committed h _ _ _ hh => exact hb.tracks.le_issued ⟨h, by rw [hh]; rfl⟩
  · have hsub := (hstep.chain_subset (not_exists.1 hc) hopen k).1
    exact (hb.versions_le k v (hsub hv)).trans (Nat.le_add_right _ _)

/-- In every run that goes on from there, the versions are at timestamps handed out. -/
theorem of_run (hb : Bounded N s) (hrun : Run s tr t) (hlt : N + allocations tr < 2 ^ 64)
    (hopen : ∀ L, .opened L ∉ tr) : Bounded (N + allocations tr) t := by
  refine hrun.invariant (motive := fun tr t => N + allocations tr < 2 ^ 64 →
    (∀ L, .opened L ∉ tr) → Bounded (N + allocations tr) t) (fun _ _ => hb)
    (fun {tr s e s'} _ ih hstep hlt hopen => ?_) hlt hopen
  rw [allocations_append, ← Nat.add_assoc] at hlt ⊢
  refine (ih (by omega) fun L hL => hopen L (List.mem_append_left _ hL)).step hstep hlt
    fun L hL => ?_
  exact hopen L (by rw [hL]; simp)

/-- With no commit in flight, the watermark has caught up with every version. -/
theorem readTs_eq (hb : Bounded N s) (hq : s.Quiescent) : s.inner.readTs = N :=
  hb.tracks.readTs_eq hq.not_holds

end Bounded

theorem Sys.Opened.bounded (h : s.Opened) : Bounded s.inner.readTs s := by
  have hnew : ∀ k, ∀ v ∈ MemoryStore.new.chain k, v.commitTs ≤ 0 := fun k v hv => by
    rw [MemoryStore.chain_new] at hv
    exact absurd hv List.not_mem_nil
  rcases h with rfl | ⟨records, inner, hopen, rfl⟩
  · exact ⟨.of_closed (fun _ => rfl) Oracle.tracks_new Oracle.registers_new, hnew⟩
  · obtain ⟨commits, p, hread, rfl, rfl⟩ := Inner.openLog_inv hopen
    -- a timestamp that is read back is one
    have hdecode : List.Forall₂ (fun (commit : RecoveredCommit) (_ : Record) =>
        commit.commitTs ≤ 2 ^ 64 - 1 ∧ True) commits records :=
      .flip ((forall₂_of_mapM hread).imp fun _ _ hok =>
        ⟨Nat.le_sub_one_of_lt (of_decodeCommit_ok hok).1, trivial⟩)
    have hts : ∀ commit ∈ commits.insertionSort (·.commitTs ≤ ·.commitTs),
        commit.commitTs ≤ 2 ^ 64 - 1 := fun commit hc =>
      ((List.forall₂_and_left ..).1 hdecode).1 commit ((List.mem_insertionSort _).1 hc)
    exact ⟨.of_closed (fun _ => rfl)
      (Oracle.tracks_recovered (Nat.lt_of_le_pred (by decide) (installAll_le hts)))
      Oracle.registers_recovered, fun k v => le_installAll⟩

end TxnDb
