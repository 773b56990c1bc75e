import TxnDb.Backed.Mirror
import TxnDb.Stores

/-!
# Runs over any store

A database over a lawful store behaves as one in memory, whatever the store does
not promise: when it fails, and what it keeps of the garbage. Every run over a
store is mirrored by one in memory (`Backed.Run.mirrors`). So the handles over any
lawful store see snapshots (`Backed.reads_snapshots`), a commit is applied, or in
conflict, or fails with nothing applied, as the history says
(`Backed.commits_exact`), and transactions that write serializably are serial
(`Backed.serial_if_written`).
-/

namespace TxnDb

open Mvcc

variable {σ : Type*} [VersionStore σ] [LawfulVersionStore σ] {b : Backed σ} {o : Observed}
  {e : Event} {h : ℕ} {a : Attempt} {store : σ} {obs : List Observed}

theorem events_append_singleton : events (obs ++ [o]) = events obs ++ o.event?.toList := by
  cases o <;> simp [events, Observed.event?]

/-- A trace is cut where an event was observed. -/
theorem events_cut {pre post : List Event} (h : events obs = pre ++ e :: post) :
    ∃ obs₁ obs₂, obs = obs₁ ++ .event e :: obs₂ ∧ events obs₁ = pre := by
  obtain ⟨obs₁, rest, rfl, rfl, hrest⟩ := List.filterMap_eq_append_iff.1 h
  obtain ⟨skipped, o, obs₂, rfl, hnone, ho, -⟩ := List.filterMap_eq_cons_iff.1 hrest
  obtain rfl : o = .event e := by
    cases o with
    | event e' => exact congrArg Observed.event (Option.some.inj ho)
    | _ => cases ho
  refine ⟨obs₁ ++ skipped, obs₂, (List.append_assoc ..).symm, ?_⟩
  rw [events, List.filterMap_append, List.filterMap_eq_nil_iff.2 hnone, List.append_nil]

/-- Every run over a lawful store, empty at first, is mirrored. -/
theorem Backed.Run.mirrors (hrun : Backed.Run store obs b)
    (hempty : LawfulVersionStore.Keeps store (fun _ => ∅) 0)
    (hlt : allocations (events obs) < 2 ^ 64) : ∃ t, Mirrors (events obs) t b := by
  refine Trace.Run.invariant (motive := fun obs b => allocations (events obs) < 2 ^ 64 →
    ∃ t, Mirrors (events obs) t b) hrun (fun _ => ⟨.new, reached_nil (.inl rfl), rfl, rfl, rfl,
      nofun, nofun, 0, ⟨Nat.zero_le _, nofun⟩, ?_⟩) ?_ hlt
  · exact historyVersions_nil ▸ hempty
  · rintro obs b o b' - ih ⟨act, hact⟩ hlt
    rw [events_append_singleton] at hlt ⊢
    obtain ⟨t, hm⟩ := ih (allocations_lt_of_append hlt)
    rcases hm.cases (Backed.step_inv hact) with ⟨hnone, hm'⟩ | ⟨e, rfl, t', hstep⟩
    · exact ⟨t, by rwa [hnone, Option.toList_none, List.append_nil]⟩
    · exact ⟨t', hm.mirrored hstep hlt⟩

/-! ### A store that fails

A run over a store that fails a read, a commit, which is then made again through
another handle, and another read. -/

/-- The store in memory, whose first, third and fifth calls fail. -/
def faulty : FaultyStore := ⟨.new, [true, false, true, false, true]⟩

def faultyRun : List Action :=
  [.begin .serializable, .get 0 [120], .get 0 [120], .put 0 [120] [1],
    .commit 0 [⟨[120], some [1]⟩] [], .tryCommit 0, .begin .transaction, .commitDone 0, .drop 0,
    .get 1 [120], .get 1 [120], .put 1 [120] [2], .commit 1 [⟨[120], some [2]⟩] [], .tryCommit 1,
    .commitDone 1, .drop 1, .begin .snapshot, .get 2 [120], .collectGarbage, .prune 0]

def faultyObs : List Observed :=
  [.event (.began 0 .serializable 0), .failed 0 [120] (.store "read visible version" "fault"),
    .event (.got 0 0 [120] none false), .event (.wrote 0 [120] (some [1])),
    .event (.allocated (increment 0 0 1 1)),
    .event (.conflicted (increment 0 0 1 1) (.store "apply batch" "fault")),
    .event (.began 1 .transaction 0), .event (.reported (increment 0 0 1 1)),
    .event (.returned 0 (.error (.store "apply batch" "fault"))),
    .event (.got 1 0 [120] none false),
    .failed 1 [120] (.store "read visible version" "fault"),
    .event (.wrote 1 [120] (some [2])), .event (.allocated (increment 1 0 2 2)),
    .event (.committed (increment 1 0 2 2)), .event (.reported (increment 1 0 2 2)),
    .event (.returned 1 (.ok 2)), .event (.began 2 .snapshot 2),
    .event (.got 2 2 [120] (some [2]) false), .event (.swept 2), .collected 2 0]

theorem faulty_empty : LawfulVersionStore.Keeps faulty (fun _ => ∅) 0 :=
  KeepsChains.empty fun _ => MemoryStore.chain_new

namespace Backed

theorem exec_faultyRun : (Trace.exec step (withStore faulty) faultyRun).map
    (Prod.map id fun b => (decide (∀ x ∈ b.handles, x.commitTs = none),
      (VersionStore.get b.store [120] b.oracle.readTs).1)) =
      some (faultyObs, true, .ok (some [2])) := by
  decide +kernel

theorem exec_faultyRun_take : (Trace.exec step (withStore faulty) (faultyRun.take 13)).map
    (Prod.map id fun b => b.handle 1) =
      some (faultyObs.take 13, .committing (increment 1 0 2 2) .allocated) := by
  decide +kernel

/-- In every run over a lawful store, reads that return are consistent and stable. -/
theorem reads_snapshots (hrun : Backed.Run store obs b)
    (hempty : LawfulVersionStore.Keeps store (fun _ => ∅) 0)
    (hlt : allocations (events obs) < 2 ^ 64) : SnapshotIsolated (events obs) := by
  obtain ⟨t, hm⟩ := hrun.mirrors hempty hlt
  have hcycle : cycle (events obs) = events obs := cycle_eq_self hm.unopened
  have hreads : ∀ h r k v, .got h r k v false ∈ events obs →
      ReadsAt (history (events obs)) k r v := fun h r k v hg => hm.readsAt (hcycle.symm ▸ hg)
  refine ⟨fun h r k v own hg => hm.got hg, hreads, fun h r r' k v v' hg hg' => ?_,
    fun h a ha => sees_or_before hreads (fun _ _ _ _ _ _ hg hg' => hm.unique_readTs hg hg') ha,
    fun pre post h kind r htr a ha => ?_⟩
  · obtain rfl := hm.unique_readTs hg hg'
    rw [← hcycle] at hg hg'
    exact (hm.reads hg).2.symm.trans (hm.reads hg').2
  · -- the run is cut where the transaction commits
    obtain ⟨mid, rest, rfl⟩ := List.append_of_mem ha
    rw [← List.cons_append, ← List.append_assoc] at htr
    obtain ⟨obs₁, obs₂, rfl, hpre⟩ := events_cut htr
    obtain ⟨m, m', hrun', ⟨act, hact⟩, -⟩ := Trace.Run.cut hrun
    obtain ⟨t₁, hm₁⟩ := Backed.Run.mirrors hrun' hempty <| by
      rw [htr] at hlt
      exact hpre ▸ allocations_lt_of_append hlt
    rcases hm₁.cases (Backed.step_inv hact) with ⟨hnone, -⟩ | ⟨e, he, t', hstep⟩
    · cases hnone
    · obtain rfl := Observed.event.inj he
      rcases hstep.step with hs | hrej
      · refine @Reached.lt_commitTs _ _ h r a _ kind hm₁.toReached ?_ hs
        rw [cycle_eq_self hm₁.unopened, hpre]
        simp
      · cases hrej

theorem reads_snapshots_faulty : SnapshotIsolated (events faultyObs) ∧
    .got 2 2 [120] (some [2]) false ∈ events faultyObs :=
  have ⟨_, hrun, _⟩ := run_of_exec exec_faultyRun
  ⟨reads_snapshots hrun faulty_empty (by decide), by decide⟩

/-- In every run over a lawful store, a transaction that tries to commit has the writes of its
    session, and is applied if it is not in conflict with the transactions committed before; or
    it is in conflict, on a key it touches; or the store fails. -/
theorem commits_exact (hrun : Backed.Run store obs b)
    (hempty : LawfulVersionStore.Keeps store (fun _ => ∅) 0)
    (hlt : allocations (events obs) < 2 ^ 64) (hh : b.handle h = .committing a .allocated) :
    Program (events obs) h a ∧ ∃ b' o, b.step (.tryCommit h) = some (b', o) ∧
      ((o = .event (.committed a) ∧ ¬Conflicts (history (events obs)) a) ∨
        (∃ k, a.Touches k ∧ o = .event (.conflicted a (.conflict k.length)) ∧
          Conflicts (history (events obs)) a) ∨
        ∃ context detail, o = .event (.conflicted a (.store context detail))) := by
  obtain ⟨t, hm⟩ := hrun.mirrors hempty hlt
  have hh' : t.handle h = .committing a .allocated := hm.handle_eq h ▸ hh
  refine ⟨hm.program hh', ?_⟩
  simp only [step, hh]
  cases hcommit : VersionStore.tryCommit b.store a.readTs a.commitTs a.writes a.reads with
  | mk result store' =>
    obtain ⟨w, -, ⟨rfl, hno, -⟩ | ⟨e, rfl, -, ⟨k, hk, hconf, rfl⟩ | ⟨context, detail, rfl⟩⟩⟩ :=
      hm.commit_cases hh' hcommit
    · exact ⟨_, _, rfl, .inl ⟨rfl, hno⟩⟩
    · exact ⟨_, _, rfl, .inr (.inl ⟨k, hk, rfl, hconf⟩)⟩
    · exact ⟨_, _, rfl, .inr (.inr ⟨context, detail, rfl⟩)⟩

theorem commits_exact_faulty : ∃ b, Backed.Run faulty (faultyObs.take 13) b ∧
    Program (events (faultyObs.take 13)) 1 (increment 1 0 2 2) ∧
    ∃ b' o, b.step (.tryCommit 1) = some (b', o) ∧ o.event?.isSome := by
  obtain ⟨b, hrun, hh⟩ := run_of_exec exec_faultyRun_take
  obtain ⟨hprogram, b', o, hstep, hcases⟩ :=
    commits_exact hrun faulty_empty (by decide) hh
  refine ⟨b, hrun, hprogram, b', o, hstep, ?_⟩
  rcases hcases with ⟨rfl, -⟩ | ⟨k, -, rfl, -⟩ | ⟨context, detail, rfl⟩ <;> rfl

/-- In every run over a lawful store, whatever the kinds of the transactions, those that commit
    are serial in the order in which they are applied, if each one that is not serializable
    writes the keys it reads from the store; and once nothing is in flight, a read that returns
    gives what they leave. -/
theorem serial_if_written (hrun : Backed.Run store obs b)
    (hempty : LawfulVersionStore.Keeps store (fun _ => ∅) 0)
    (hlt : allocations (events obs) < 2 ^ 64)
    (hreads : ∀ a, .committed a ∈ events obs → ¬Serializable (events obs) a.id →
      ∀ r k v, .got a.id r k v false ∈ events obs → a.Writes k) :
    Serial (fun _ => none) ((history (events obs)).map fun a => session (events obs) a.id) ∧
      ((∀ x ∈ b.handles, x.commitTs = none) → ∀ k value store',
        VersionStore.get b.store k b.oracle.readTs = (.ok value, store') →
          value = ((history (events obs)).map fun a => session (events obs) a.id).foldl execOps
            (fun _ => none) k) := by
  obtain ⟨t, hm⟩ := hrun.mirrors hempty hlt
  have hc : ∀ a ∈ history (events obs), .committed a ∈ events obs := fun a =>
    (mem_history hm.unopened).1
  have hbuf : ∀ a ∈ history (events obs), ∀ k,
      buffered (session (events obs) a.id) k = a.writes.dlookup k := fun a ha =>
    (hm.programs (hc a ha)).writes
  refine ⟨serial_of_precedes hm.valid.pairwise_precedes (fun a ha _ _ => hm.valid.lt a ha) hbuf
    (fun a ha => hm.replays_session hm.unopened (hc a ha)) fun a ha k hk => ?_,
    fun hq k value store' hget => ?_⟩
  · by_cases hs : Serializable (events obs) a.id
    · exact hm.touches (hc a ha) hs hk
    · obtain ⟨r, v, hg⟩ := hm.fresh.1 hk
      exact .inl (hreads a (hc a ha) hs r k v hg)
  · have hq : t.Quiescent := fun x hx => hq x (hm.handles ▸ hx)
    rw [← hm.oracle] at hget
    rw [foldl_execOps_eq_current hbuf, hm.get_eq t.sees_readTs hget, ← hm.get_quiescent hq]

/-- The one transaction that commits is not serializable, and writes the key it reads. -/
theorem serial_if_written_faulty :
    Serial (fun _ => none) ((history (events faultyObs)).map fun a =>
      session (events faultyObs) a.id) ∧
    ((history (events faultyObs)).map fun a => session (events faultyObs) a.id).foldl execOps
      (fun _ => none) [120] = some [2] := by
  obtain ⟨b, hrun, hb⟩ := run_of_exec exec_faultyRun
  obtain ⟨hq, hget⟩ := Prod.mk.inj hb
  have hwritten : ∀ a, .committed a ∈ events faultyObs → ¬Serializable (events faultyObs) a.id →
      ∀ r k v, .got a.id r k v false ∈ events faultyObs → a.Writes k := by
    intro a ha _ r k v hg
    obtain rfl : increment 1 0 2 2 = a := by
      simpa [faultyObs, events, Observed.event?] using ha
    obtain rfl : k = [120] := by
      simp only [faultyObs, events, Observed.event?, List.filterMap_cons, List.filterMap_nil,
        List.mem_cons, Event.got.injEq, reduceCtorEq, false_or] at hg
      rcases hg with hg | hg | hg | hg
      exacts [hg.2.2.1, hg.2.2.1, hg.2.2.1, absurd hg List.not_mem_nil]
    exact List.mem_singleton_self _
  obtain ⟨hserial, hleft⟩ := serial_if_written hrun faulty_empty (by decide) hwritten
  exact ⟨hserial, (hleft (of_decide_eq_true hq) [120] (some [2]) _ (Prod.ext hget rfl)).symm⟩

end Backed

end TxnDb
