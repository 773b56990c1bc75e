import TxnDb.Reached

/-!
# Snapshot isolation

What the transactions of a database in memory observe, in every run:

* `snapshot_isolation`: every read gives the value of the newest transaction at
  or below the timestamp of its handle, among all that ever commit;
* `aborts_exact`: a commit is in conflict iff a transaction committed before
  wrote a key it touches above its timestamp;
* `chains_strict`: the chains stay strictly ascending, though commits are applied
  out of the order of their timestamps;
* `no_lost_update`: a transaction that overwrites another has seen it, so that
  transactions that read, modify and write a key compose.
-/

namespace TxnDb

open Mvcc

variable {tr : List Event} {s : Sys} {h r : ℕ} {a b : Attempt} {k : Key}

/-! ## Reads -/

/-- What the handle `h` reads of the keys `a` writes is by `a`, or by a later transaction. -/
def SeesTxn (tr : List Event) (h : ℕ) (a : Attempt) : Prop :=
  ∀ r k v, .got h r k v false ∈ tr → a.Writes k →
    ∃ b, IsNewest (history tr) k r b ∧ b.WritesValue k v ∧ a.commitTs ≤ b.commitTs

/-- What the handle `h` reads of the keys `a` writes is by transactions earlier than `a`. -/
def SeesBefore (tr : List Event) (h : ℕ) (a : Attempt) : Prop :=
  ∀ r k v, .got h r k v false ∈ tr → a.Writes k →
    (∃ b, IsNewest (history tr) k r b ∧ b.WritesValue k v ∧ b.commitTs < a.commitTs) ∨
      ((∀ b ∈ history tr, b.Writes k → r < b.commitTs) ∧ v = none)

/-- The reads of the run are consistent and stable. -/
structure SnapshotIsolated (tr : List Event) : Prop where
  /-- A handle reads at the timestamp it began at. -/
  began : ∀ h r k v own, .got h r k v own ∈ tr → ∃ kind, .began h kind r ∈ tr
  /-- A read from the store gives the value written by the transaction with the
      greatest commit timestamp at or below that of the handle, among all that commit. -/
  reads : ∀ h r k v, .got h r k v false ∈ tr → ReadsAt (history tr) k r v
  /-- Two reads of a key through a handle agree. -/
  agree : ∀ h r r' k v v', .got h r k v false ∈ tr → .got h r' k v' false ∈ tr → v = v'
  /-- A transaction is seen entirely, or not at all. -/
  atomic : ∀ h, ∀ a ∈ history tr, SeesTxn tr h a ∨ SeesBefore tr h a
  /-- Nothing is committed at or below a timestamp that was handed out to a reader. -/
  stable : ∀ pre post h kind r, tr = pre ++ .began h kind r :: post →
    ∀ a, .committed a ∈ post → r < a.commitTs

namespace Reached

theorem readsAt (hr : Reached tr s) {v : Option Value} (hg : .got h r k v false ∈ cycle tr) :
    ReadsAt (history tr) k r v :=
  hr.valid.readsAt_iff.2 (hr.reads hg).2

theorem unique_readTs (hr : Reached tr s) {r' : ℕ} {k' : Key} {v v' : Option Value}
    {own own' : Bool} (hg : .got h r k v own ∈ tr) (hg' : .got h r' k' v' own' ∈ tr) : r = r' := by
  obtain ⟨kind, hb⟩ := hr.got hg
  obtain ⟨kind', hb'⟩ := hr.got hg'
  exact (hr.unique hb hb').2

/-- A committed transaction has read at its timestamp. -/
theorem got_readTs (hr : Reached tr s) (hc : .committed a ∈ tr) {v : Option Value} {own : Bool}
    (hg : .got a.id r k v own ∈ tr) : r = a.readTs := by
  obtain ⟨kind, hb⟩ := hr.got hg
  obtain ⟨⟨kind', hb'⟩, -⟩ := hr.committed hc
  exact (hr.unique hb hb').2

/-- With nothing in flight, a reader that begins sees what the whole history left. -/
theorem get_quiescent (hr : Reached tr s) (hq : s.Quiescent) (k : Key) :
    s.inner.store.get k s.inner.readTs = current (history tr) k := by
  rw [hr.get_eq s.sees_readTs, snapshot_eq_current]
  intro a ha _
  exact (hr.commit_le a ha).trans_eq (hr.tracks.readTs_eq hq.not_holds).symm

end Reached

/-- A transaction seen at the timestamp of a handle, or not. -/
theorem sees_or_before (hreads : ∀ h r k v, .got h r k v false ∈ tr → ReadsAt (history tr) k r v)
    (hunique : ∀ r r' k k' v v', .got h r k v false ∈ tr → .got h r' k' v' false ∈ tr → r = r')
    (ha : a ∈ history tr) : SeesTxn tr h a ∨ SeesBefore tr h a := by
  by_cases hseen : ∃ r k v, .got h r k v false ∈ tr ∧ a.commitTs ≤ r
  · obtain ⟨r₀, k₀, v₀, hg₀, hle⟩ := hseen
    refine .inl fun r k v hg hak => ?_
    obtain rfl := hunique _ _ _ _ _ _ hg hg₀
    rcases hreads h r k v hg with ⟨b, hb, hv⟩ | ⟨hnone, -⟩
    · exact ⟨b, hb, hv, hb.max a ha hak hle⟩
    · exact absurd (hnone a ha hak) (not_lt.2 hle)
  · refine .inr fun r k v hg _ => (hreads h r k v hg).imp_left fun ⟨b, hb, hv⟩ => ⟨b, hb, hv, ?_⟩
    by_contra hle
    exact hseen ⟨r, k, v, hg, (not_lt.1 hle).trans hb.le⟩

/-- Nothing is committed at or below a timestamp handed out to a reader since the
    database was opened. -/
theorem Reached.lt_commitTs {s' : Sys} {kind : Kind} (hr : Reached tr s)
    (hb : .began h kind r ∈ cycle tr) (hstep : Step s (.committed a) s') : r < a.commitTs := by
  cases hstep with
  | committed hh => exact (hr.replays hb).1.trans_lt (hr.readTs_lt hh).2

/-! ## A counter

A run of three transactions that increment a counter: the second one is in
conflict with the third, which commits above the first. -/

/-- An increment of the counter, to `n`. -/
def increment (id readTs commitTs : ℕ) (n : UInt8) : Attempt :=
  ⟨id, readTs, commitTs, [⟨[120], some [n]⟩], []⟩

/-- The value of the counter after an increment. -/
def incremented : Option Value → Option Value
  | some [n] => some [n + 1]
  | _ => some [1]

def counterRun : List Action :=
  [.begin .serializable, .get 0 [120], .put 0 [120] [1], .commit 0 [⟨[120], some [1]⟩] [],
    .begin .serializable, .tryCommit 0, .commitDone 0, .drop 0,
    .begin .serializable, .get 2 [120], .put 2 [120] [2], .get 1 [120], .put 1 [120] [1],
    .commit 1 [⟨[120], some [1]⟩] [], .commit 2 [⟨[120], some [2]⟩] [], .tryCommit 2,
    .tryCommit 1, .begin .snapshot, .commitDone 1, .drop 1, .commitDone 2, .drop 2,
    .get 3 [120], .collectGarbage, .prune 0, .drop 3, .begin .snapshot, .get 4 [120]]

def counterTrace : List Event :=
  [.began 0 .serializable 0, .got 0 0 [120] none false, .wrote 0 [120] (some [1]),
    .allocated (increment 0 0 1 1), .began 1 .serializable 0, .committed (increment 0 0 1 1),
    .reported (increment 0 0 1 1), .returned 0 (.ok 1), .began 2 .serializable 1,
    .got 2 1 [120] (some [1]) false, .wrote 2 [120] (some [2]), .got 1 0 [120] none false,
    .wrote 1 [120] (some [1]), .allocated (increment 1 0 2 1), .allocated (increment 2 1 3 2),
    .committed (increment 2 1 3 2), .conflicted (increment 1 0 2 1) (.conflict 1),
    .began 3 .snapshot 1, .reported (increment 1 0 2 1), .returned 1 (.error (.conflict 1)),
    .reported (increment 2 1 3 2), .returned 2 (.ok 3), .got 3 1 [120] (some [1]) false,
    .swept 1, .pruned 0 0, .dropped 3, .began 4 .snapshot 3, .got 4 3 [120] (some [2]) false]

/-- In every run, reads are consistent and stable. -/
theorem snapshot_isolation (hrun : Run .new tr s) (hlt : allocations tr < 2 ^ 64) :
    SnapshotIsolated tr := by
  have hr := reached_of_run_new hrun hlt
  have hcycle : cycle tr = tr := cycle_eq_self (log_eq_none_of_run hrun).2
  have hreads : ∀ h r k v, .got h r k v false ∈ tr → ReadsAt (history tr) k r v :=
    fun h r k v hg => hr.readsAt (hcycle.symm ▸ hg)
  refine ⟨fun h r k v own hg => hr.got hg, hreads, fun h r r' k v v' hg hg' => ?_,
    fun h a ha => sees_or_before hreads (fun _ _ _ _ _ _ hg hg' => hr.unique_readTs hg hg') ha,
    fun pre post h kind r htr a ha => ?_⟩
  · obtain rfl := hr.unique_readTs hg hg'
    rw [← hcycle] at hg hg'
    exact (hr.reads hg).2.symm.trans (hr.reads hg').2
  · -- the run is cut where the transaction commits
    obtain ⟨mid, rest, rfl⟩ := List.append_of_mem ha
    rw [← List.cons_append, ← List.append_assoc] at htr
    subst htr
    obtain ⟨m, m', hpre, ⟨act, hact⟩, -⟩ := Trace.Run.cut hrun
    have hm := reached_of_run_new hpre (allocations_lt_of_append hlt)
    refine @Reached.lt_commitTs _ _ h r a _ kind hm ?_ (step_inv hact)
    rw [cycle_eq_self (log_eq_none_of_run hpre).2]
    simp

theorem exec_counterRun : (Trace.exec Sys.step .new counterRun).map
    (Prod.map id fun s => (decide s.Quiescent, s.inner.store.get [120] s.inner.readTs)) =
      some (counterTrace, true, some [2]) := by
  decide +kernel

theorem history_counterTrace :
    history counterTrace = [increment 0 0 1 1, increment 2 1 3 2] := by
  decide

theorem snapshot_isolation_counter :
    SnapshotIsolated counterTrace ∧ .got 3 1 [120] (some [1]) false ∈ counterTrace :=
  have ⟨_, hrun, _⟩ := run_of_exec exec_counterRun
  ⟨snapshot_isolation hrun (by decide), by decide⟩

/-! ## Aborts -/

/-- A transaction of the history `H` has written, above the timestamp of `a`, a key `a` touches. -/
def Conflicts (H : List Attempt) (a : Attempt) : Prop :=
  ∃ b ∈ H, a.readTs < b.commitTs ∧ ∃ k, b.Writes k ∧ a.Touches k

theorem Reached.conflict?_eq_none_iff (hr : Reached tr s) (hsees : s.Sees a.readTs) :
    s.inner.store.conflict? a.readTs a.writes a.reads = none ↔ ¬Conflicts (history tr) a := by
  rw [hr.toInv.conflict?_eq_none_iff hsees]
  constructor
  · rintro h ⟨b, hb, hlt, k, hbk, hak⟩
    exact absurd (h k hak b hb hbk) (not_le.2 hlt)
  · intro h k hak b hb hbk
    by_contra hle
    exact h ⟨b, hb, not_le.1 hle, k, hbk, hak⟩

/-- In every run, a transaction that tries to commit is in conflict iff a
    transaction committed before has written, above its timestamp, a key it
    writes or validates. -/
theorem aborts_exact (hrun : Run .new tr s) (hlt : allocations tr < 2 ^ 64)
    (hh : s.handle h = .committing a .allocated) :
    (∃ kind, .began h kind a.readTs ∈ tr ∧ (kind ≠ .serializable → a.reads = [])) ∧
      Program tr h a ∧
      ((∃ k s', a.Touches k ∧
          s.step (.tryCommit h) = some (s', .conflicted a (.conflict k.length))) ↔
        Conflicts (history tr) a) ∧
      ((∃ s', s.step (.tryCommit h) = some (s', .committed a)) ↔ ¬Conflicts (history tr) a) := by
  have hr := reached_of_run_new hrun hlt
  have hsees : s.Sees a.readTs := Sys.sees_of_readTs (congrArg Handle.readTs hh)
  have hprogram := hr.program hh
  obtain ⟨kind, hb⟩ := hr.began (congrArg Handle.readTs hh)
  have hb := mem_of_mem_cycle hb
  refine ⟨⟨kind, hb, fun hne => ?_⟩, hprogram, ?_⟩
  -- what is validated was read by a serializable transaction
  · refine List.eq_nil_iff_forall_not_mem.2 fun k hk => hne ?_
    obtain ⟨⟨r, hb'⟩, -⟩ := (hprogram.reads k).1 hk
    exact (hr.unique hb hb').1
  · have hiff := hr.conflict?_eq_none_iff hsees
    rcases MemoryStore.tryCommit_commits s.inner.store a.readTs a.commitTs a.writes a.reads with
      ⟨k, hk, herr⟩ | ⟨store, hnone, hok, -⟩
    · -- the commit fails, on the key `k`
      have hconf : Conflicts (history tr) a := not_not.1 fun hno => by
        rw [hiff.2 hno] at hk
        cases hk
      have htouch : a.Touches k := List.mem_append.1 (List.mem_of_find?_eq_some hk)
      have hstep : s.step (.tryCommit h) = some (s.set h (.committing a (.decided
          (.error (.conflict k.length)))) s.inner, .conflicted a (.conflict k.length)) := by
        simp only [Sys.step, hh, herr]
      refine ⟨iff_of_true ⟨k, _, htouch, hstep⟩ hconf, iff_of_false ?_ (not_not.2 hconf)⟩
      rintro ⟨s', hstep'⟩
      rw [hstep] at hstep'
      cases hstep'
    · -- the commit succeeds
      have hconf : ¬Conflicts (history tr) a := hiff.1 hnone
      obtain ⟨s', hstep⟩ : ∃ s', s.step (.tryCommit h) = some (s', .committed a) := by
        simp only [Sys.step, hh, hok]
        exact ⟨_, rfl⟩
      refine ⟨iff_of_false ?_ hconf, iff_of_true ⟨s', hstep⟩ hconf⟩
      rintro ⟨k, s'', -, hstep'⟩
      rw [hstep] at hstep'
      cases hstep'

theorem exec_counterRun_take : (Trace.exec Sys.step .new (counterRun.take 16)).map
    (Prod.map id fun s => s.handle 1) =
      some (counterTrace.take 16, .committing (increment 1 0 2 1) .allocated) := by
  decide +kernel

theorem aborts_exact_counter : ∃ s, Run .new (counterTrace.take 16) s ∧
    ∃ k s', (increment 1 0 2 1).Touches k ∧
      s.step (.tryCommit 1) = some (s', .conflicted (increment 1 0 2 1) (.conflict k.length)) :=
  have ⟨s, hrun, hh⟩ := run_of_exec exec_counterRun_take
  ⟨s, hrun, ((aborts_exact hrun (by decide) hh).2.2.1).2
    ⟨increment 2 1 3 2, by decide, by decide, [120], by decide, by decide⟩⟩

/-! ## Chains -/

/-- The chains are strictly ascending, below the next timestamp; above the watermark,
    they have the versions of transactions applied whose timestamps are not
    reported, or wait for those below to be. -/
structure StrictChains (tr : List Event) (s : Sys) : Prop where
  ascending : ∀ k, Ascending (s.inner.store.chain k)
  /-- The next timestamp, as a `u64`. -/
  nextTs : s.inner.oracle.nextTs = wrap (allocations tr + 1)
  below : ∀ k, ∀ u ∈ s.inner.store.chain k, u.commitTs < allocations tr + 1
  above : ∀ k, ∀ u ∈ s.inner.store.chain k, s.inner.readTs < u.commitTs →
    ∃ a, .committed a ∈ tr ∧ a.commitTs = u.commitTs ∧ a.WritesValue k u.value ∧
      ((∃ stage, s.handle a.id = .committing a stage ∧ stage.Applied) ∨
        u.commitTs ∈ s.inner.oracle.pending.ahead)

/-- A version of a chain is that of a transaction of the history. -/
theorem Reached.mem_chain (hr : Reached tr s) {u : Version} (hu : u ∈ s.inner.store.chain k) :
    ∃ a ∈ history tr, a.WritesValue k u.value ∧ a.commitTs = u.commitTs := by
  obtain ⟨w, -, hp⟩ := hr.chains k
  exact mem_versions.1 (hp.mem hu)

/-- A transaction above the watermark is not reported, or waits for those below to be. -/
theorem Reached.committing_or_ahead (hr : Reached tr s) (ha : a ∈ history tr)
    (hlt : s.inner.readTs < a.commitTs) :
    (∃ stage, s.handle a.id = .committing a stage ∧ stage.Applied) ∨
      a.commitTs ∈ s.inner.oracle.pending.ahead := by
  by_contra hno
  obtain ⟨hidle, hahead⟩ := not_or.1 hno
  obtain ⟨h, hh⟩ := (hr.tracks.inFlight a.commitTs).2 ⟨hlt, hr.commit_le a ha, hahead⟩
  obtain ⟨b, stage, hx, hts⟩ := Sys.exists_committing hh
  have hatt := hr.attempts hx
  obtain ⟨rfl, happ⟩ := hatt.eq_of_mem a ha hts.symm
  exact hidle ⟨stage, hatt.id.symm ▸ hx, happ⟩

/-- The timestamps handed out by a database in memory are those up to their number. -/
theorem issued_eq_allocations (hrun : Run .new tr s) (hlt : allocations tr < 2 ^ 64) :
    issued tr = allocations tr := by
  refine (reached_nil (.inl rfl)).invariant (motive := fun tr _ => (∀ L, .opened L ∉ tr) →
    allocations tr < 2 ^ 64 → issued tr = allocations tr) hrun hlt
    (fun ⟨L, hL⟩ => absurd hL ((log_eq_none_of_run hrun).2 L)) (fun _ _ => rfl)
    (fun {tr s e s'} hr _ ih hstep hno hlt => ?_) (log_eq_none_of_run hrun).2 hlt
  rw [allocations_append] at hlt
  have ih := ih (fun L hL => hno L (List.mem_append_left _ hL)) (by omega)
  have hopen : ∀ L, e ≠ .opened L := fun L he =>
    hno L (he ▸ List.mem_append_right _ (List.mem_singleton_self e))
  rw [issued_append_singleton, allocations_append,
    hstep.issue_eq hr.tracks.nextTs (by omega) hopen, ih]

/-- In every run, the chains are strictly ascending. -/
theorem chains_strict (hrun : Run .new tr s) (hlt : allocations tr < 2 ^ 64) :
    StrictChains tr s := by
  have hr := reached_of_run_new hrun hlt
  have hno := (log_eq_none_of_run hrun).2
  have hissued := issued_eq_allocations hrun hlt
  refine ⟨hr.ascending, hissued ▸ hr.tracks.nextTs, fun k u hu => ?_, fun k u hu hlt => ?_⟩
  · obtain ⟨a, ha, -, hc⟩ := hr.mem_chain hu
    rw [← hissued, ← hc]
    exact Nat.lt_succ_of_le (hr.commit_le a ha)
  · obtain ⟨a, ha, hw, hc⟩ := hr.mem_chain hu
    refine ⟨a, (mem_history hno).1 ha, hc, hw, ?_⟩
    rw [← hc] at hlt ⊢
    exact hr.committing_or_ahead ha hlt

/-- The third transaction was applied above the second one, in flight. -/
theorem chains_strict_counter : ∃ s, Run .new (counterTrace.take 16) s ∧
    StrictChains (counterTrace.take 16) s :=
  have ⟨s, hrun, _⟩ := run_of_exec exec_counterRun_take
  ⟨s, hrun, chains_strict hrun (by decide)⟩

/-! ## Updates -/

/-- In every run, of two transactions that write a key, the one committed above
    has read at or above the other; and if the transactions that write the key
    read it, and write a function of what they read, then the value of the key,
    once nothing is in flight, is the composition of these functions, in order of
    timestamps. -/
theorem no_lost_update (hrun : Run .new tr s) (hlt : allocations tr < 2 ^ 64) :
    (∀ a ∈ history tr, ∀ b ∈ history tr, ∀ k, a.Writes k → b.Writes k →
      a.commitTs < b.commitTs → a.commitTs ≤ b.readTs) ∧
    ∀ k (f : ℕ → Option Value → Option Value),
      (∀ a ∈ history tr, a.Writes k →
        ∃ r v, .got a.id r k v false ∈ tr ∧ a.WritesValue k (f a.id v)) →
      s.Quiescent →
      s.inner.store.get k s.inner.readTs =
        ((writers (history tr) k).insertionSort (·.commitTs ≤ ·.commitTs)).foldl
          (fun v a => f a.id v) none := by
  have hr := reached_of_run_new hrun hlt
  have hno := (log_eq_none_of_run hrun).2
  refine ⟨fun a ha b hb k hak hbk hab => hr.valid.overwritten_le ha hb hak hbk hab,
    fun k f hf hq => ?_⟩
  rw [((hr.valid.writers_sorted k).imp le_of_lt).insertionSort_eq, hr.get_quiescent hq]
  refine current_eq_foldl fun P a Q hH hak => ?_
  have ha : a ∈ history tr := hH ▸ List.mem_append_right _ List.mem_cons_self
  obtain ⟨r, v, hg, hw⟩ := hf a ha hak
  -- the transaction has read at its timestamp what those applied before it left
  have hv : snapshot (history tr) r k = v := (hr.reads (cycle_eq_self hno ▸ hg)).2
  have hvalid : Validated (P ++ a :: Q) := hH ▸ hr.valid
  rw [hr.got_readTs ((mem_history hno).1 ha) hg, hH, hvalid.snapshot_eq_current (.inl hak)] at hv
  rwa [hv]

/-- The increments of the counter compose. -/
theorem no_lost_update_counter : ∃ s, Run .new counterTrace s ∧
    s.inner.store.get [120] s.inner.readTs =
      ((writers (history counterTrace) [120]).insertionSort (·.commitTs ≤ ·.commitTs)).foldl
        (fun v _ => incremented v) none := by
  obtain ⟨s, hrun, hs⟩ := run_of_exec exec_counterRun
  refine ⟨s, hrun, (no_lost_update hrun (by decide)).2 [120] (fun _ => incremented) ?_
    (of_decide_eq_true (Prod.mk.inj hs).1)⟩
  rw [history_counterTrace]
  rintro a ha -
  rcases List.mem_pair.1 ha with rfl | rfl
  · exact ⟨0, none, by decide, rfl⟩
  · exact ⟨1, some [1], by decide, rfl⟩

end TxnDb
