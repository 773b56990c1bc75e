import TxnDb.Isolation
import TxnDb.Outcomes

/-!
# Appends that fail

A commit whose append fails has already applied its writes, and its timestamp is
reported as done. So its writes are seen by what begins once the watermark has
reached it, and conflict with later commits, although its record is not in the
log (`exposed`).

Failures go unseen (`NeverObserved`) iff no client gets to see them
(`FailuresAvoided`): none reads a key a failed transaction wrote at or above its
timestamp, unless a later transaction has overwritten it, and none tries to
commit against it, unless it is in conflict anyway (`never_observed_iff`). Both
look at the reads since the database was last opened, and hold at any time.
-/

namespace TxnDb

open Mvcc

variable {tr pre post : List Event} {s m m' : Sys} {a b x : Attempt} {k : Key} {log : CommitLog}
  {e : TxnError}

/-- The transaction `b` has written, above the timestamp of `x`, a key `x` touches. -/
def ConflictsWith (b x : Attempt) : Prop := x.readTs < b.commitTs ∧ ∃ k, b.Writes k ∧ x.Touches k

/-- No transaction whose append has failed is observed: by a read, or by a commit
    tried after the failure. -/
structure NeverObserved (tr : List Event) (log : CommitLog) : Prop where
  /-- A read gives the value of a transaction whose record is in the log, if any. -/
  reads : ∀ h r k v, .got h r k v false ∈ cycle tr →
    (∃ b, IsNewest (history tr) k r b ∧ b.WritesValue k v ∧
      record b ∈ log.wal.records ∧ ¬AppendFailed tr b) ∨
      ((∀ b ∈ history tr, b.Writes k → r < b.commitTs) ∧ v = none)
  /-- A commit in conflict is so with a transaction that has not failed. -/
  conflicts : ∀ pre post x e, tr = pre ++ .conflicted x e :: post →
    ∃ b ∈ history pre, ¬AppendFailed pre b ∧ ConflictsWith b x

/-- The transaction `x` tries to commit, after the events `pre`. -/
def Tries (tr pre : List Event) (x : Attempt) : Prop :=
  ∃ post, tr = pre ++ .committed x :: post ∨ ∃ e, tr = pre ++ .conflicted x e :: post

/-- No transaction whose append has failed comes in the way of a client. -/
structure FailuresAvoided (tr : List Event) : Prop where
  /-- A key it wrote is not read at or above its timestamp, unless it was overwritten. -/
  reads : ∀ a ∈ history tr, AppendFailed tr a → ∀ h r k v, .got h r k v false ∈ cycle tr →
    a.Writes k → a.commitTs ≤ r →
    ∃ b ∈ history tr, b.Writes k ∧ a.commitTs < b.commitTs ∧ b.commitTs ≤ r
  /-- A commit is not tried against it, unless there is another conflict. -/
  commits : ∀ pre x, Tries tr pre x → ∀ a ∈ history pre, AppendFailed pre a → ConflictsWith a x →
    ∃ b ∈ history pre, ¬AppendFailed pre b ∧ ConflictsWith b x

/-- A commit is in conflict iff it is so with some transaction of the history. -/
theorem Reached.conflictsWith_of_conflicted (hm : Reached pre m)
    (hstep : Step m (.conflicted x e) m') : ∃ b ∈ history pre, ConflictsWith b x := by
  cases hstep with
  | conflicted hh herr =>
    have hsees : m.Sees x.readTs := Sys.sees_of_readTs (congrArg Handle.readTs hh)
    rcases MemoryStore.tryCommit_commits m.inner.store x.readTs x.commitTs x.writes x.reads with
      ⟨k, hk, -⟩ | ⟨_, -, hok, -⟩
    · by_contra hno
      rw [(hm.conflict?_eq_none_iff hsees).2 hno] at hk
      cases hk
    · rw [herr] at hok
      cases hok

theorem Reached.not_conflictsWith_of_committed (hm : Reached pre m)
    (hstep : Step m (.committed x) m') (hb : b ∈ history pre) : ¬ConflictsWith b x := by
  cases hstep with
  | committed hh hok =>
    have hsees : m.Sees x.readTs := Sys.sees_of_readTs (congrArg Handle.readTs hh)
    rcases MemoryStore.tryCommit_commits m.inner.store x.readTs x.commitTs x.writes x.reads with
      ⟨_, -, herr⟩ | ⟨_, hnone, -⟩
    · rw [hok] at herr
      cases herr
    · exact fun hbx => (hm.conflict?_eq_none_iff hsees).1 hnone ⟨b, hb, hbx⟩

/-- At the end of every run of a durable database, a transaction whose append has failed was
    never observed, since the database was last opened, iff no client has read what it wrote,
    or committed against it. Of the reads before, an earlier part of the run tells. -/
theorem never_observed_iff (hrun : Run .create tr s) (hlt : allocations tr < 2 ^ 64)
    (hfit : Recoverable tr) (hlog : s.inner.log = some log) :
    NeverObserved tr log ↔ FailuresAvoided tr := by
  have hr := reached_of_run (.inr rfl) hrun hlt hfit
  -- the state in which a commit is tried
  have hcut : ∀ {pre e post}, tr = pre ++ e :: post →
      ∃ m m', Reached pre m ∧ Step m e m' := fun {pre e post} htr => by
    subst htr
    obtain ⟨m, m', hpre, ⟨act, hact⟩, -⟩ := Trace.Run.cut hrun
    have hltpre : allocations pre < 2 ^ 64 := allocations_lt_of_append hlt
    exact ⟨m, m', reached_of_run (.inr rfl) hpre hltpre hfit.of_append, step_inv hact⟩
  constructor
  · intro hnever
    refine ⟨fun a ha hfail h r k v hg hak hle => ?_, fun pre x htries a ha hfail hax => ?_⟩
    · rcases hnever.reads h r k v hg with ⟨b, hb, -, -, hnot⟩ | ⟨hnone, -⟩
      · refine ⟨b, hb.mem, hb.writes, lt_of_le_of_ne (hb.max a ha hak hle) fun heq => hnot ?_,
          hb.le⟩
        exact hr.valid.eq_of_commitTs_eq ha hb.mem heq ▸ hfail
      · exact absurd (hnone a ha hak) (not_lt.2 hle)
    · obtain ⟨post, htr | ⟨e, htr⟩⟩ := htries
      · obtain ⟨m, m', hm, hstep⟩ := hcut htr
        exact absurd hax (hm.not_conflictsWith_of_committed hstep ha)
      · exact hnever.conflicts pre post x e htr
  · intro havoid
    refine ⟨fun h r k v hg => ?_, fun pre post x e htr => ?_⟩
    · refine (hr.readsAt hg).imp_left fun ⟨b, hb, hv⟩ => ?_
      -- a failed transaction that is not overwritten is not read
      have hnot : ¬AppendFailed tr b := fun hfail => by
        obtain ⟨b', hb', hbk', hlt', hle'⟩ :=
          havoid.reads b hb.mem hfail h r k v hg hb.writes hb.le
        exact absurd (hb.max b' hb' hbk' hle') (not_le.2 hlt')
      have hle : b.commitTs ≤ s.inner.readTs := hb.le.trans (hr.reads hg).1
      exact ⟨b, hb, hv, (hr.logged_of_le hlog hb.mem hle).resolve_right hnot, hnot⟩
    · obtain ⟨m, m', hm, hstep⟩ := hcut htr
      obtain ⟨b, hb, hbx⟩ := hm.conflictsWith_of_conflicted hstep
      by_cases hfail : AppendFailed pre b
      · exact havoid.commits pre x ⟨post, .inr ⟨e, htr⟩⟩ b hb hfail hbx
      · exact ⟨b, hb, hfail, hbx⟩

/-! ## A failure exposed

A transaction whose append fails, and another one that writes the same key, and
tries to commit then. A snapshot begins after both. -/

/-- The transaction whose append fails. -/
def unlogged : Attempt := ⟨0, 0, 1, [⟨[120], some [1]⟩], []⟩

/-- The transaction that tries to commit after the failure. -/
def rival : Attempt := ⟨1, 0, 2, [⟨[120], some [2]⟩], []⟩

def exposedRun : List Action :=
  [.begin .transaction, .begin .transaction, .put 0 [120] [1], .put 1 [120] [2],
    .commit 0 [⟨[120], some [1]⟩] [], .tryCommit 0, .append 0, .appended 0 (some "disk full"),
    .commitDone 0, .drop 0, .commit 1 [⟨[120], some [2]⟩] [], .tryCommit 1, .commitDone 1, .drop 1,
    .begin .snapshot, .get 2 [120]]

def exposedTrace : List Event :=
  [.began 0 .transaction 0, .began 1 .transaction 0, .wrote 0 [120] (some [1]),
    .wrote 1 [120] (some [2]), .allocated unlogged, .committed unlogged, .appending unlogged,
    .appended unlogged (some "disk full"), .reported unlogged,
    .returned 0 (.error (.durability "disk full")), .allocated rival,
    .conflicted rival (.conflict 1), .reported rival, .returned 1 (.error (.conflict 1)),
    .began 2 .snapshot 2, .got 2 2 [120] (some [1]) false]

theorem exec_exposedRun : (Trace.exec Sys.step .create exposedRun).map
    (Prod.map id fun s => s.inner.log) = some (exposedTrace, some ⟨⟨[], []⟩⟩) := by
  decide +kernel

/-- The run of a failure that a snapshot of another key does not come across. -/
def avoidedRun : List Action := exposedRun.take 10 ++ [.begin .snapshot, .get 2 [121]]

def avoidedTrace : List Event :=
  exposedTrace.take 10 ++ [.began 2 .snapshot 1, .got 2 1 [121] none false]

theorem exec_avoidedRun : (Trace.exec Sys.step .create avoidedRun).map
    (Prod.map id fun s => s.inner.log) = some (avoidedTrace, some ⟨⟨[], []⟩⟩) := by
  decide +kernel

/-- A transaction tries to commit before the failure only. -/
theorem tries_avoidedTrace (htries : Tries avoidedTrace pre x) : pre = avoidedTrace.take 5 := by
  have hcut : avoidedTrace =
      avoidedTrace.take 5 ++ .committed unlogged :: avoidedTrace.drop 6 := rfl
  obtain ⟨post, htr | ⟨e, htr⟩⟩ := htries
  all_goals
    refine ((List.append_cons_inj_of_notMem ?_ ?_).1 (hcut.symm.trans htr)).1.symm <;>
      simp [avoidedTrace, exposedTrace]

/-- The failure is not observed. -/
theorem never_observed_iff_avoided : ∃ s, Run .create avoidedTrace s ∧
    AppendFailed avoidedTrace unlogged ∧ NeverObserved avoidedTrace ⟨⟨[], []⟩⟩ := by
  obtain ⟨s, hrun, hlog⟩ := run_of_exec exec_avoidedRun
  refine ⟨s, hrun, ⟨"disk full", by decide⟩, (never_observed_iff hrun (by decide)
    (fun ⟨L, hL⟩ => ?_) hlog).2 ⟨fun a ha _ h r k v hg hak _ => ?_, fun pre x htries a ha => ?_⟩⟩
  · simp [avoidedTrace, exposedTrace] at hL
  · -- the key read is not the one written
    have hread : cycle avoidedTrace = avoidedTrace := rfl
    have hhist : history avoidedTrace = [unlogged] := rfl
    rw [hread] at hg
    simp only [avoidedTrace, exposedTrace, List.take_succ_cons, List.take_zero,
      List.cons_append, List.nil_append, List.mem_cons, Event.got.injEq, List.not_mem_nil,
      reduceCtorEq, false_or, or_false] at hg
    obtain ⟨-, -, rfl, -⟩ := hg
    obtain rfl := List.mem_singleton.1 (hhist ▸ ha)
    exact absurd hak (by decide)
  · rw [tries_avoidedTrace htries] at ha
    exact absurd ha List.not_mem_nil

/-- A commit that returned the failure of its append is read, and another one is
    rejected for it. -/
theorem exposed : ∃ s, Run .create exposedTrace s ∧ allocations exposedTrace < 2 ^ 64 ∧
    (∀ L, .opened L ∉ exposedTrace) ∧ s.inner.log = some ⟨⟨[], []⟩⟩ ∧
    .returned 0 (.error (.durability "disk full")) ∈ exposedTrace ∧
    .wrote 0 [120] (some [1]) ∈ exposedTrace ∧ .got 2 2 [120] (some [1]) false ∈ exposedTrace ∧
    .conflicted rival (.conflict 1) ∈ exposedTrace ∧
    ¬NeverObserved exposedTrace ⟨⟨[], []⟩⟩ := by
  obtain ⟨s, hrun, hlog⟩ := run_of_exec exec_exposedRun
  refine ⟨s, hrun, by decide, by simp [exposedTrace], hlog, by decide, by decide, by decide,
    by decide, fun hnever => ?_⟩
  rcases hnever.reads 2 2 [120] (some [1]) (by decide) with ⟨_, _, _, hrec, _⟩ | ⟨_, hv⟩
  · exact absurd hrec List.not_mem_nil
  · cases hv

end TxnDb
