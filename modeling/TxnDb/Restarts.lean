import TxnDb.Durability

/-!
# Restarts

When a durable database is opened again, and no commit was in flight and no append has failed, a
new snapshot reads what it did, and timestamps resume above those of the transactions that
committed (`reopen_quiescent`), though not above those that were handed out and lost (`rewound`).
-/

namespace TxnDb

open Mvcc

variable {tr tr' pre post : List Event} {s s' t : Sys} {h c : ℕ} {a b : Attempt} {k : Key}
  {v : Option Value} {log : CommitLog} {survivors records : List Record} {M : List Attempt}

/-- A record tells the timestamp of its transaction. -/
theorem commitTs_eq_of_record_eq (ha : a.commitTs < 2 ^ 64) (hb : b.commitTs < 2 ^ 64)
    (h : record a = record b) : a.commitTs = b.commitTs := by
  have hdata := (List.cons_inj_right _).1 (congrArg Record.data h)
  have hts := List.append_inj_left hdata
    ((LittleEndian.length_toLE 8 _).trans (LittleEndian.length_toLE 8 _).symm)
  rw [← @LittleEndian.ofLE_toLE 8 _ ha, hts, LittleEndian.ofLE_toLE hb]

theorem exists_of_highest (L : List Attempt) : highest L = 0 ∨ ∃ a ∈ L, a.commitTs = highest L := by
  induction L using List.reverseRecOn with
  | nil => exact .inl rfl
  | append_singleton L a ih =>
    rw [highest_append_singleton]
    rcases le_total (highest L) a.commitTs with hle | hle
    · exact .inr ⟨a, by simp, (max_eq_right hle).symm⟩
    · rw [max_eq_left hle]
      exact ih.imp_right fun ⟨b, hb, hbc⟩ => ⟨b, List.mem_append_left _ hb, hbc⟩

/-- With nothing in flight, the watermark is the last timestamp handed out. -/
theorem Reached.readTs_eq_issued (hr : Reached tr s) (hq : s.Quiescent) :
    s.inner.readTs = issued tr := hr.tracks.readTs_eq hq.not_holds

/-- The watermark does not go back below a timestamp that is in the log, through
    any number of crashes. -/
theorem Reached.le_readTs_of_run (hr : Reached tr s) (hrun : Run s tr' t)
    (hlt : allocations (tr ++ tr') < 2 ^ 64) (hfit : Recoverable (tr ++ tr'))
    (hlog : s.inner.log = some log) (hb : record b ∈ log.wal.records) (hts : b.commitTs < 2 ^ 64)
    (hle : b.commitTs ≤ s.inner.readTs) : b.commitTs ≤ t.inner.readTs := by
  -- carried along with the log, from which the watermark starts after a crash
  suffices hand : b.commitTs ≤ t.inner.readTs ∧
      ∃ log, t.inner.log = some log ∧ record b ∈ log.wal.records from hand.1
  refine hr.invariant (motive := fun _ t => b.commitTs ≤ t.inner.readTs ∧
    ∃ log, t.inner.log = some log ∧ record b ∈ log.wal.records) hrun hlt hfit ⟨hle, log, hlog, hb⟩
    fun {tr s e s'} hr hr' ⟨hle, log, hlog, hb⟩ hstep => ?_
  obtain ⟨log', hlog', hsub⟩ := hstep.records_subset hlog
  refine ⟨?_, log', hlog', hsub hb⟩
  by_cases hopen : ∃ L, e = .opened L
  · -- the record is that of a recovered transaction
    obtain ⟨L, rfl⟩ := hopen
    obtain ⟨K, K', hholds⟩ := hr'.holds hlog'
    obtain ⟨a, ha, hab⟩ := List.mem_map.1 (hholds.records ▸ hsub hb)
    have hmem := hholds.mem a (List.mem_append_left _ ha)
    have hc := hr'.commit_le a hmem
    rw [← commitTs_eq_of_record_eq (hc.trans_lt hr'.tracks.lt) hts hab]
    have hq : s'.Quiescent := by
      cases hstep with
      | opened =>
        intro x hx
        obtain ⟨_, -, rfl⟩ := List.mem_map.1 hx
        rfl
    exact hc.trans_eq (hr'.readTs_eq_issued hq).symm
  · exact hle.trans (hr.toTimestamped.readTs_le hstep (not_exists.1 hopen))

/-- Opened again with no commit in flight, the database has its history. -/
theorem Reopened.mem_iff (ho : Reopened tr records M s s') (hr : Reached tr s)
    (hnofail : ∀ a d, .appended a (some d) ∉ tr) (hq : s.Quiescent) (hlog : s.inner.log = some log)
    (hperm : records.Perm log.wal.records) : a ∈ M ↔ a ∈ history tr := by
  refine ⟨ho.mem a, fun ha => ?_⟩
  have hle : a.commitTs ≤ s.inner.readTs := hr.readTs_eq_issued hq ▸ hr.commit_le a ha
  have hrec : record a ∈ log.wal.records := by
    refine (hr.logged_of_le hlog ha hle).resolve_right ?_
    rintro ⟨d, hd⟩
    exact hnofail a d hd
  obtain ⟨b, hb, hab⟩ := List.mem_map.1 (ho.records ▸ hperm.symm.subset hrec)
  -- a record tells its transaction
  exact List.inj_on_of_nodup_map hr.nodup_id (ho.mem b hb) ha (congrArg Record.owner hab) ▸ hb

/-- After a restart, timestamps resume above those in the log. -/
theorem Reopened.lt_of_returned (ho : Reopened tr records M s s') (hrun : Run .create tr s)
    (hstep : s.step (.crash survivors records) = some (s', .opened (recovered M)))
    (hrun' : Run s' tr' t) (hlt : allocations (tr ++ .opened (recovered M) :: tr') < 2 ^ 64)
    (hfit : ∀ a, .committed a ∈ tr ++ .opened (recovered M) :: tr' → Fits a.writes)
    (hret : .returned h (.ok c) ∈ tr') (hw : .wrote h k v ∈ tr') : s'.inner.readTs < c := by
  rw [List.append_cons] at hlt hfit
  have hrun₁ : Run .create (tr ++ [.opened (recovered M)]) s' := hrun.snoc ⟨_, hstep⟩
  have hr' := ho.reached.run hrun' hlt fun _ => hfit
  obtain ⟨X, Y, htr⟩ := List.append_of_mem hret
  rw [List.append_cons] at htr
  subst htr
  obtain ⟨m, hX, -⟩ := Trace.Run.split hrun'
  have hout := outcomes_of_run (.inr rfl) (hrun₁.append hX)
    (allocations_lt_of_append (by rwa [← List.append_assoc] at hlt))
    fun _ a ha => hfit a (by rw [← List.append_assoc]; exact List.mem_append_left _ ha)
  obtain ⟨a, hsucc⟩ : ∃ a, Succeeded (cycle (tr ++ [.opened (recovered M)] ++
      (X ++ [.returned h (.ok c)]))) m.inner.log.isSome h c a := by
    refine (hout.returned ?_).resolve_left fun hro => ?_
    · rw [← List.append_assoc, cycle_append_of_ne (by simp)]
      simp
    · have hmem : .readOnly h c ∈ tr ++ [.opened (recovered M)] ++
          (X ++ [.returned h (.ok c)] ++ Y) := by
        rw [← List.append_assoc]
        exact List.mem_append_left _ (mem_of_mem_cycle hro)
      exact hr'.not_readOnly (List.mem_append_right _ hw) hmem
  -- the commit took place after the restart
  have hcom : .committed a ∈ X ++ [.returned h (.ok c)] ++ Y := by
    have hcycle := hsucc.committed
    rw [← List.append_cons] at hcycle
    exact List.mem_append_left _ (mem_of_mem_cycle_append_opened hcycle)
  obtain ⟨pre, post, htr⟩ := List.append_of_mem hcom
  rw [htr] at hrun' hlt hfit
  obtain ⟨n, n', hpre, ⟨act, hact⟩, -⟩ := Trace.Run.cut hrun'
  have hltn : allocations (tr ++ [.opened (recovered M)] ++ pre) < 2 ^ 64 := by
    rw [← List.append_assoc] at hlt
    exact allocations_lt_of_append hlt
  have hfitn : Recoverable (tr ++ [.opened (recovered M)] ++ pre) := fun _ a ha =>
    hfit a (by rw [← List.append_assoc]; exact List.mem_append_left _ ha)
  have hn := ho.reached.run hpre hltn hfitn
  have hle : s'.inner.readTs ≤ n.inner.readTs := by
    rw [ho.readTs]
    rcases exists_of_highest (recovered M) with h0 | ⟨b, hb, hbc⟩
    · exact h0 ▸ Nat.zero_le _
    · obtain ⟨b', hb', rfl⟩ := mem_recovered.1 hb
      have hrec : record (replayed b') ∈ M.map record := List.mem_map.2 ⟨b', hb', rfl⟩
      rw [← hbc]
      exact ho.reached.le_readTs_of_run hpre hltn hfitn ho.log hrec (ho.loggable b' hb').1
        (by rw [ho.readTs]; exact hbc.le)
  rw [← hsucc.commitTs]
  cases step_inv hact with
  | committed hh => exact hle.trans_lt (hn.readTs_lt hh).2

/-- The timestamp of a committed transaction was handed out. -/
theorem commitTs_lt_of_run (hrun : Run .create tr s) (hlt : allocations tr < 2 ^ 64)
    (hfit : ∀ a, .committed a ∈ tr → Fits a.writes) (hc : .committed a ∈ tr) :
    a.commitTs < 2 ^ 64 := by
  obtain ⟨pre, post, rfl⟩ := List.append_of_mem hc
  obtain ⟨m, m', hpre, ⟨act, hact⟩, -⟩ := Trace.Run.cut hrun
  have hm := reached_of_run (.inr rfl) hpre (allocations_lt_of_append hlt)
    fun _ a ha => hfit a (List.mem_append_left _ ha)
  cases step_inv hact with
  | committed hh =>
    exact (hm.tracks.le_issued ⟨_, congrArg Handle.commitTs hh⟩).trans_lt hm.tracks.lt

/-- What is left of the run `tr` to `s`, when the database is opened again as `s'`. -/
structure Restarted (tr : List Event) (s s' : Sys) : Prop where
  /-- The last committed timestamp is that of a transaction that committed. -/
  readTs : s'.inner.readTs = highest (history tr)
  le : s'.inner.readTs ≤ s.inner.readTs
  /-- It is what it was iff the last timestamp handed out, if any, went to such a transaction. -/
  readTs_iff : s'.inner.readTs = s.inner.readTs ↔
    s.inner.readTs = 0 ∨ ∃ a ∈ history tr, a.commitTs = s.inner.readTs
  /-- It is at or above the timestamps returned by the commits that wrote. -/
  returned : ∀ h c k v, .returned h (.ok c) ∈ tr → .wrote h k v ∈ tr → c ≤ s'.inner.readTs
  /-- A new snapshot reads what it did. -/
  reads : ∀ k, s'.inner.store.get k s'.inner.readTs = s.inner.store.get k s.inner.readTs

/-- In every run of a durable database in which no append fails, at a point where
    no commit is in flight, the database opens again, a new snapshot reads what it
    did, and later commits return timestamps above those of the transactions that
    committed. -/
theorem reopen_quiescent (hrun : Run .create tr s) (hlt : allocations tr < 2 ^ 64)
    (hfit : ∀ a, .committed a ∈ tr → Fits a.writes) (hnofail : ∀ a d, .appended a (some d) ∉ tr)
    (hq : s.Quiescent) (hlog : s.inner.log = some log) (hperm : records.Perm log.wal.records) :
    ∃ s' recovered, s.step (.crash [] records) = some (s', .opened recovered) ∧
      Restarted tr s s' ∧
      ∀ tr' t h c k v, Run s' tr' t → allocations (tr ++ .opened recovered :: tr') < 2 ^ 64 →
        (∀ a, .committed a ∈ tr' → Fits a.writes) → .returned h (.ok c) ∈ tr' →
        .wrote h k v ∈ tr' → s'.inner.readTs < c := by
  have hr := reached_of_run (.inr rfl) hrun hlt fun _ => hfit
  have hperm' : records.Perm (log.wal.records ++ []) := by rwa [List.append_nil]
  obtain ⟨M, s', hstep, ho⟩ := hr.reopen hlt hfit hlog (List.nil_sublist _) hperm'
  have hmem : ∀ a, a ∈ M ↔ a ∈ history tr := fun a => ho.mem_iff hr hnofail hq hlog hperm
  have hw : s.inner.readTs = issued tr := hr.readTs_eq_issued hq
  -- rejected attempts leave no record, and their timestamps are lost
  have hhigh : s'.inner.readTs = highest (history tr) := by
    rw [ho.readTs]
    refine le_antisymm (highest_le fun a ha => ?_) (highest_le fun a ha => ?_)
    · obtain ⟨b, hb, rfl⟩ := mem_recovered.1 ha
      exact @le_highest b _ ((hmem b).1 hb)
    · exact @le_highest (replayed a) _ (mem_recovered.2 ⟨a, (hmem a).2 ha, rfl⟩)
  have hle : s'.inner.readTs ≤ s.inner.readTs := by
    rw [hhigh, hw]
    exact highest_le hr.commit_le
  refine ⟨s', _, hstep, ⟨hhigh, hle, ⟨fun heq => ?_, ?_⟩, fun h c k v hret hwrote => ?_,
    fun k => ?_⟩, fun tr' t h c k v hrun' hlt' hfit' hret hwrote => ?_⟩
  · rw [← heq, hhigh]
    exact exists_of_highest _
  · rintro (h0 | ⟨a, ha, hac⟩)
    · exact le_antisymm hle (h0 ▸ Nat.zero_le _)
    · exact le_antisymm hle (hac ▸ hhigh ▸ le_highest ha)
  · obtain ⟨a, -, rfl, hcom, hrec⟩ := logged_of_returned hrun hlt hfit hlog hret hwrote
    obtain ⟨b, hb, hab⟩ := List.mem_map.1 (ho.records ▸ hperm.symm.subset hrec)
    rw [← commitTs_eq_of_record_eq (ho.loggable b hb).1 (commitTs_lt_of_run hrun hlt hfit hcom) hab,
      hhigh]
    exact le_highest (ho.mem b hb)
  · -- the log holds the history, and both snapshots read what it leaves
    have hleaves := hr.leaves (fun b hb => hw ▸ hr.commit_le b hb) k
    refine ((ho.leaves k).congr fun x => ?_).unique
      (fun a ha b hb heq => hr.valid.eq_of_commitTs_eq ha hb heq) hleaves
    simp only [List.mem_map, hmem]
  · refine ho.lt_of_returned hrun hstep hrun' hlt' (fun a ha => ?_) hret hwrote
    rcases List.mem_append.1 ha with ha | ha
    · exact hfit a ha
    · exact hfit' a ((List.mem_cons.1 ha).resolve_left nofun)

/-! ### A timestamp lost

The timestamp of a transaction in conflict is lost when the database is opened
again: a later transaction commits at it. -/

def rewoundRun : List Action :=
  [.begin .transaction, .begin .transaction, .put 0 [120] [1], .put 1 [120] [2],
    .commit 0 [⟨[120], some [1]⟩] [], .tryCommit 0, .append 0, .appended 0 none, .commitDone 0,
    .drop 0, .commit 1 [⟨[120], some [2]⟩] [], .tryCommit 1, .commitDone 1, .drop 1]

def rewoundTrace : List Event :=
  [.began 0 .transaction 0, .began 1 .transaction 0, .wrote 0 [120] (some [1]),
    .wrote 1 [120] (some [2]), .allocated acknowledged, .committed acknowledged,
    .appending acknowledged, .appended acknowledged none, .reported acknowledged,
    .returned 0 (.ok 1), .allocated ⟨1, 0, 2, [⟨[120], some [2]⟩], []⟩,
    .conflicted ⟨1, 0, 2, [⟨[120], some [2]⟩], []⟩ (.conflict 1),
    .reported ⟨1, 0, 2, [⟨[120], some [2]⟩], []⟩, .returned 1 (.error (.conflict 1))]

/-- The database is opened again, and a transaction commits: the watermark in
    between, and whether the commit returned `2`. -/
def restart (s : Sys) : Option (ℕ × Bool) := do
  let (s', _) ← s.step (.crash [] [record acknowledged])
  let (tr, _) ← Trace.exec Sys.step s' [.begin .transaction, .put 2 [120] [3],
    .commit 2 [⟨[120], some [3]⟩] [], .tryCommit 2, .append 2, .appended 2 none, .commitDone 2,
    .drop 2]
  return (s'.inner.readTs, .returned 2 (.ok 2) ∈ tr)

theorem exec_rewoundRun : (Trace.exec Sys.step .create rewoundRun).map (Prod.map id fun s =>
    (s.inner.log, decide (s.Quiescent ∧ s.inner.readTs = 2 ∧ restart s = some (1, true)))) =
      some (rewoundTrace, some ⟨⟨[record acknowledged], []⟩⟩, true) := by
  decide +kernel

theorem fits_rewoundTrace (a : Attempt) (ha : .committed a ∈ rewoundTrace) : Fits a.writes := by
  simp only [rewoundTrace, List.mem_cons, Event.committed.injEq, reduceCtorEq, List.not_mem_nil,
    false_or, or_false] at ha
  rw [ha]
  decide

theorem reopen_quiescent_rewound : ∃ s s' recovered, Run .create rewoundTrace s ∧
    s.step (.crash [] [record acknowledged]) = some (s', .opened recovered) ∧
    Restarted rewoundTrace s s' := by
  obtain ⟨s, hrun, hs⟩ := run_of_exec exec_rewoundRun
  obtain ⟨hlog, hs⟩ := Prod.mk.inj hs
  obtain ⟨hq, -⟩ := of_decide_eq_true hs
  obtain ⟨s', recovered, hstep, hrest, -⟩ := reopen_quiescent hrun (by decide) fits_rewoundTrace
    (by simp [rewoundTrace]) hq hlog (List.Perm.refl _)
  exact ⟨s, s', recovered, hrun, hstep, hrest⟩

/-- The watermark is `2` before the database is opened again, and `1` after; and a
    later transaction commits at `2`. -/
theorem rewound : ∃ s s' t e tr', Run .create rewoundTrace s ∧ allocations rewoundTrace < 2 ^ 64 ∧
    (∀ a d, .appended a (some d) ∉ rewoundTrace) ∧ s.Quiescent ∧ s.inner.readTs = 2 ∧
    s.inner.log = some ⟨⟨[record acknowledged], []⟩⟩ ∧
    s.step (.crash [] [record acknowledged]) = some (s', e) ∧ s'.inner.readTs = 1 ∧
    Run s' tr' t ∧ .returned 2 (.ok 2) ∈ tr' := by
  obtain ⟨s, hrun, hs⟩ := run_of_exec exec_rewoundRun
  obtain ⟨hlog, hs⟩ := Prod.mk.inj hs
  obtain ⟨hq, hw, hrestart⟩ := of_decide_eq_true hs
  simp only [restart, Option.bind_eq_bind, Option.bind_eq_some_iff] at hrestart
  obtain ⟨⟨s', e⟩, hstep, ⟨tr', t⟩, hexec, hret⟩ := hrestart
  obtain ⟨hw', hret⟩ := Prod.mk.inj (Option.some.inj hret)
  exact ⟨s, s', t, e, tr', hrun, by decide, by simp [rewoundTrace], hq, hw, hlog, hstep,
    hw', Trace.run_of_exec hexec, of_decide_eq_true hret⟩

end TxnDb
