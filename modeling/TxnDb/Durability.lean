import TxnDb.Isolation
import TxnDb.Outcomes

/-!
# Durability

What a durable database finds in its log when it is opened again after a crash at any point,
provided that no append has failed: every transaction that was acknowledged or observed, with all
it depends on, and no other than transactions that committed; and a new snapshot reads what it
holds (`crash_recovery`).
-/

namespace TxnDb

open Mvcc

variable {tr tr' pre post : List Event} {s s' t : Sys} {h r c : ℕ} {a b : Attempt} {k : Key}
  {v : Option Value} {log : CommitLog} {survivors records : List Record} {M : List Attempt}

/-! ## Opening the database again -/

/-- A database opened again on the records of `M`. -/
structure Reopened (tr : List Event) (records : List Record) (M : List Attempt) (s s' : Sys) :
    Prop where
  records : records = M.map record
  nodup : M.Nodup
  mem : ∀ a ∈ M, a ∈ history tr
  loggable : ∀ a ∈ M, Loggable a
  reached : Reached (tr ++ [.opened (recovered M)]) s'
  readTs : s'.inner.readTs = highest (recovered M)
  log : s'.inner.log = some ⟨⟨M.map record, []⟩⟩

/-- The database opens after a crash at any point. -/
theorem Reached.reopen (hr : Reached tr s) (hlt : allocations tr < 2 ^ 64)
    (hfit : ∀ a, .committed a ∈ tr → Fits a.writes) (hlog : s.inner.log = some log)
    (hsub : survivors.Sublist log.wal.inFlight)
    (hperm : records.Perm (log.wal.records ++ survivors)) :
    ∃ M s', s.step (.crash survivors records) = some (s', .opened (recovered M)) ∧
      Reopened tr records M s s' := by
  obtain ⟨M, hM, hnd, hmem, hopen, hrec⟩ := hr.toLogged.crash hr.toInv hfit hlog hsub hperm
  have hstep := Step.opened hlog hsub hperm hopen hrec
  refine ⟨M, _, ?_, hM, hnd, fun a ha => (hmem a ha).1, fun a ha => (hmem a ha).2,
    hr.step hstep ?_ fun _ => hfit, rfl, rfl⟩
  · simp only [Sys.step, hlog, hsub, hperm, and_self, if_true, hopen, hrec]
  · rwa [allocations_append, show allocations [.opened (recovered M)] = 0 from rfl, add_zero]

theorem history_append_opened {L : List Attempt} : history (tr ++ [.opened L]) = L :=
  history_append_singleton

/-- The commits leave `v` at the key `k`: of those that write it, the one with the
    greatest timestamp writes `v`; `none` if there is none. -/
def Leaves (commits : List RecoveredCommit) (k : Key) (v : Option Value) : Prop :=
  (∃ x ∈ commits, x.writes.dlookup k = some v ∧
      ∀ y ∈ commits, k ∈ y.writes.keys → y.commitTs ≤ x.commitTs) ∨
    ((∀ y ∈ commits, k ∉ y.writes.keys) ∧ v = none)

theorem Leaves.congr {commits commits' : List RecoveredCommit} (h : Leaves commits k v)
    (hmem : ∀ x, x ∈ commits ↔ x ∈ commits') : Leaves commits' k v := by
  rcases h with ⟨x, hx, hv, hmax⟩ | ⟨hnone, hv⟩
  · exact .inl ⟨x, (hmem x).1 hx, hv, fun y hy => hmax y ((hmem y).2 hy)⟩
  · exact .inr ⟨fun y hy => hnone y ((hmem y).2 hy), hv⟩

/-- What commits with distinct timestamps leave is one value. -/
theorem Leaves.unique {L : List Attempt} {v' : Option Value}
    (hinj : ∀ a ∈ L, ∀ b ∈ L, a.commitTs = b.commitTs → a = b) (h : Leaves (L.map commitOf) k v)
    (h' : Leaves (L.map commitOf) k v') : v = v' := by
  rcases h with ⟨x, hx, hv, hmax⟩ | ⟨hnone, rfl⟩ <;>
    rcases h' with ⟨y, hy, hv', hmax'⟩ | ⟨hnone', rfl⟩
  · have hxk : k ∈ x.writes.keys := List.dlookup_isSome.1 (by rw [hv]; rfl)
    have hyk : k ∈ y.writes.keys := List.dlookup_isSome.1 (by rw [hv']; rfl)
    have hle := hmax y hy hyk
    have hle' := hmax' x hx hxk
    obtain ⟨a, ha, rfl⟩ := List.mem_map.1 hx
    obtain ⟨b, hb, rfl⟩ := List.mem_map.1 hy
    obtain rfl := hinj a ha b hb (le_antisymm hle' hle)
    exact Option.some.inj (hv.symm.trans hv')
  · exact absurd (List.dlookup_isSome.1 (by rw [hv]; rfl)) (hnone' x hx)
  · exact absurd (List.dlookup_isSome.1 (by rw [hv']; rfl)) (hnone y hy)
  · rfl

/-- With the watermark at or above all the commits, a new snapshot reads what they leave. -/
theorem Reached.leaves (hr : Reached tr s) (hle : ∀ b ∈ history tr, b.commitTs ≤ s.inner.readTs)
    (k : Key) : Leaves ((history tr).map commitOf) k (s.inner.store.get k s.inner.readTs) := by
  have hget := hr.get_eq s.sees_readTs k
  rcases hr.valid.readsAt_iff.2 hget.symm with ⟨a, ha, hv⟩ | ⟨hnone, hv⟩
  · refine .inl ⟨commitOf a, List.mem_map_of_mem ha.mem, hv, fun y hy hk => ?_⟩
    obtain ⟨b, hb, rfl⟩ := List.mem_map.1 hy
    exact ha.max b hb hk (hle b hb)
  · refine .inr ⟨fun y hy hk => ?_, hv⟩
    obtain ⟨b, hb, rfl⟩ := List.mem_map.1 hy
    exact absurd (hnone b hb hk) (not_lt.2 (hle b hb))

/-- A new snapshot reads what the log holds. -/
theorem Reopened.leaves (ho : Reopened tr records M s s') (k : Key) :
    Leaves (M.map commitOf) k (s'.inner.store.get k s'.inner.readTs) := by
  refine (ho.reached.leaves (fun b hb => ?_) k).congr fun x => ?_
  · rw [history_append_opened] at hb
    exact ho.readTs ▸ le_highest hb
  · -- the commits are those of the recovered transactions
    rw [history_append_opened, (recovered_perm.map _).mem_iff, List.map_map]
    rfl

/-! ## Crashes -/

/-- A read through `h` was of the version of `b`. -/
def ReadsFrom (tr : List Event) (h : ℕ) (b : Attempt) : Prop :=
  ∃ pre post r k v, tr = pre ++ .got h r k v false :: post ∧ IsNewest (history pre) k r b

/-- When `a` committed, `b` was in the history, and wrote a key that `a` writes. -/
def Overwrites (tr : List Event) (a b : Attempt) : Prop :=
  ∃ pre post k, tr = pre ++ .committed a :: post ∧ b ∈ history pre ∧ b.Writes k ∧ a.Writes k

/-- The records found after the events `tr`, those of `commits`, are of the
    transactions that have to be there. -/
structure CrashSafe (tr : List Event) (records : List Record) (commits : List RecoveredCommit) :
    Prop where
  /-- The transactions whose commit returned with success. -/
  returned : ∀ h c k v, .returned h (.ok c) ∈ tr → .wrote h k v ∈ tr →
    ∃ a, a.id = h ∧ a.commitTs = c ∧ .committed a ∈ tr ∧ record a ∈ records
  /-- The transactions whose writes were observed. -/
  observed : ∀ h b, ReadsFrom tr h b → record b ∈ records
  /-- No transaction that was rolled back, or rejected. -/
  committed : ∀ entry ∈ records, ¬Rejected tr entry.owner ∧
    ∃ a, .committed a ∈ tr ∧ record a = entry
  /-- With a transaction, those it has read from, and those it has overwritten. -/
  closed : ∀ a b, .committed a ∈ tr → record a ∈ records →
    ReadsFrom tr a.id b ∨ Overwrites tr a b → record b ∈ records
  /-- The timestamps are distinct. -/
  nodup : (commits.map (·.commitTs)).Nodup

/-- A transaction at or below the watermark is in the log, from then on. -/
theorem Reached.logged_later (hr : Reached tr s) (hnofail : ∀ a d, .appended a (some d) ∉ tr)
    (hlog : s.inner.log.isSome) (hrun : Run s tr' t) (ht : t.inner.log = some log)
    (hb : b ∈ history tr) (hle : b.commitTs ≤ s.inner.readTs) : record b ∈ log.wal.records := by
  obtain ⟨log₀, hlog₀⟩ := Option.isSome_iff_exists.1 hlog
  obtain ⟨log', hlog', hsub⟩ := records_subset_of_run hrun hlog₀
  obtain rfl := Option.some.inj (ht.symm.trans hlog')
  refine hsub ((hr.logged_of_le hlog₀ hb hle).resolve_right ?_)
  rintro ⟨d, hd⟩
  exact hnofail b d hd

/-- A durable database stays so. -/
theorem isSome_log_of_run (hrun : Run s tr t) : t.inner.log.isSome = s.inner.log.isSome :=
  hrun.invariant (motive := fun _ t => t.inner.log.isSome = s.inner.log.isSome) rfl
    fun _ ih hstep => hstep.isSome_log.trans ih

section Crash

variable (hrun : Run .create tr s) (hlt : allocations tr < 2 ^ 64)
  (hfit : ∀ a, .committed a ∈ tr → Fits a.writes) (hnofail : ∀ a d, .appended a (some d) ∉ tr)
  (hlog : s.inner.log = some log)

include hrun hlt hfit hnofail hlog

/-- What was observed is in the log. -/
theorem ReadsFrom.logged (hb : ReadsFrom tr h b) : record b ∈ log.wal.records := by
  obtain ⟨pre, post, r, k, v, rfl, hnew⟩ := hb
  obtain ⟨m, m', hpre, hstep, hpost⟩ := Trace.Run.cut hrun
  have hm := reached_of_run (.inr rfl) hpre (allocations_lt_of_append hlt)
    fun _ a ha => hfit a (List.mem_append_left _ ha)
  -- the handle reads at or below the watermark
  have hread : r ≤ m.inner.readTs := by
    obtain ⟨act, hact⟩ := hstep
    cases step_inv hact with
    | gotSnapshot hh | gotStore hh => exact hm.le (congrArg Handle.readTs hh)
  exact hm.logged_later (fun a d ha => hnofail a d (List.mem_append_left _ ha))
    (isSome_log_of_run hpre) ((Trace.Run.single hstep).append hpost) hlog hnew.mem
    (hnew.le.trans hread)

/-- What was overwritten is in the log. -/
theorem Overwrites.logged (hb : Overwrites tr a b) : record b ∈ log.wal.records := by
  obtain ⟨pre, post, k, rfl, hmem, hbk, hak⟩ := hb
  rw [List.append_cons] at hrun hlt hfit hnofail
  obtain ⟨m, hpre, hpost⟩ := Trace.Run.split hrun
  have hm := reached_of_run (.inr rfl) hpre (allocations_lt_of_append hlt)
    fun _ a ha => hfit a (List.mem_append_left _ ha)
  have hhist : history (pre ++ [.committed a]) = history pre ++ [a] := history_append_singleton
  refine hm.logged_later (fun a d ha => hnofail a d (List.mem_append_left _ ha))
    (isSome_log_of_run hpre) hpost hlog (hhist ▸ List.mem_append_left _ hmem) ?_
  -- the transaction has seen what it overwrites
  have hseen := hm.valid.seen
  have hread := hm.read_le a (hhist ▸ List.mem_append_right _ (List.mem_singleton_self a))
  rw [hhist] at hseen
  exact ((List.pairwise_append.1 hseen).2.2 b hmem a (List.mem_singleton_self a) k hbk
    (.inl hak)).trans hread

omit hnofail in
/-- What was acknowledged is in the log. -/
theorem logged_of_returned (hret : .returned h (.ok c) ∈ tr) (hw : .wrote h k v ∈ tr) :
    ∃ a, a.id = h ∧ a.commitTs = c ∧ .committed a ∈ tr ∧ record a ∈ log.wal.records := by
  have hr := reached_of_run (.inr rfl) hrun hlt fun _ => hfit
  obtain ⟨pre, post, htr⟩ := List.append_of_mem hret
  have htr' : tr = pre ++ [.returned h (.ok c)] ++ post := by rw [htr, List.append_cons]
  have hmem : ∀ {e}, e ∈ cycle (pre ++ [.returned h (.ok c)]) → e ∈ tr := fun he => by
    rw [htr']
    exact List.mem_append_left _ (mem_of_mem_cycle he)
  obtain ⟨m, hpre, hpost⟩ := Trace.Run.split (htr' ▸ hrun)
  have ho := outcomes_of_run (.inr rfl) hpre
    (allocations_lt_of_append (htr' ▸ hlt))
    fun _ a ha => hfit a (htr' ▸ List.mem_append_left _ ha)
  have hcycle : .returned h (.ok c) ∈ cycle (pre ++ [.returned h (.ok c)]) := by
    rw [cycle_append_of_ne (by simp)]
    simp
  rcases ho.returned hcycle with hro | ⟨a, hsucc⟩
  · exact absurd (hmem hro) (hr.not_readOnly hw)
  · exact ⟨a, hsucc.id, hsucc.commitTs, hmem hsucc.committed,
      hr.kept hlog (hmem (hsucc.appended (isSome_log_of_run hpre)))⟩

/-- In every run of a durable database in which no append fails, through any number
    of crashes, and with a crash at any point, the database opens again, the log
    holds the transactions that have to be there, and a new snapshot reads them. -/
theorem crash_recovery (hsub : survivors.Sublist log.wal.inFlight)
    (hperm : records.Perm (log.wal.records ++ survivors)) :
    ∃ s' recovered commits, s.step (.crash survivors records) = some (s', .opened recovered) ∧
      (records.mapM fun entry => decodeCommit entry.data) = .ok commits ∧
      CrashSafe tr records commits ∧
      ∀ k, Leaves commits k (s'.inner.store.get k s'.inner.readTs) := by
  have hr := reached_of_run (.inr rfl) hrun hlt fun _ => hfit
  have hv := verdicts_of_run (.inr rfl) hrun hlt fun _ => hfit
  have hkept : log.wal.records ⊆ records := fun entry he =>
    hperm.symm.subset (List.mem_append_left _ he)
  -- the records left are those of transactions `M` of the history
  obtain ⟨M, s', hstep, ho⟩ := hr.reopen hlt hfit hlog hsub hperm
  obtain rfl := ho.records
  refine ⟨s', _, M.map commitOf, hstep, decode_records ho.loggable, ?_, ho.leaves⟩
  refine ⟨fun h c k v hret hw => ?_, fun h b hb => hkept (hb.logged hrun hlt hfit hnofail hlog),
    fun entry he => ?_, fun a b _ _ hab => hkept ?_, ?_⟩
  · obtain ⟨a, hid, hc, hcom, ha⟩ := logged_of_returned hrun hlt hfit hlog hret hw
    exact ⟨a, hid, hc, hcom, hkept ha⟩
  · obtain ⟨b, hb, rfl⟩ := List.mem_map.1 he
    obtain ⟨a, ha, hab, -⟩ := hr.origin b (ho.mem b hb)
    refine ⟨fun hrej => ?_, a, ha, hab⟩
    exact (hv.rejected hrej).2.2 a ha (congrArg Record.owner hab)
  · rcases hab with hab | hab
    · exact hab.logged hrun hlt hfit hnofail hlog
    · exact hab.logged hrun hlt hfit hnofail hlog
  · rw [List.map_map]
    exact ho.nodup.map_on fun a ha b hb heq =>
      hr.valid.eq_of_commitTs_eq (ho.mem a ha) (ho.mem b hb) heq

end Crash

/-! ### A crash during an append

Two transactions, of which the one with the higher timestamp is being appended
when the other one is acknowledged, and observed. -/

/-- The transaction acknowledged. -/
def acknowledged : Attempt := ⟨0, 0, 1, [⟨[120], some [1]⟩], []⟩

/-- The transaction being appended. -/
def underway : Attempt := ⟨1, 0, 2, [⟨[121], some [1]⟩], []⟩

def crashRun : List Action :=
  [.begin .transaction, .begin .transaction, .put 0 [120] [1], .put 1 [121] [1],
    .commit 0 [⟨[120], some [1]⟩] [], .commit 1 [⟨[121], some [1]⟩] [], .tryCommit 1, .append 1,
    .tryCommit 0, .append 0, .appended 0 none, .commitDone 0, .drop 0, .begin .snapshot,
    .get 2 [120]]

def crashTrace : List Event :=
  [.began 0 .transaction 0, .began 1 .transaction 0, .wrote 0 [120] (some [1]),
    .wrote 1 [121] (some [1]), .allocated acknowledged, .allocated underway, .committed underway,
    .appending underway, .committed acknowledged, .appending acknowledged,
    .appended acknowledged none, .reported acknowledged, .returned 0 (.ok 1), .began 2 .snapshot 1,
    .got 2 1 [120] (some [1]) false]

theorem exec_crashRun : (Trace.exec Sys.step .create crashRun).map
    (Prod.map id fun s => s.inner.log) =
      some (crashTrace, some ⟨⟨[record acknowledged], [record underway]⟩⟩) := by
  decide +kernel

/-- The record being appended survives the crash, before the one acknowledged. -/
theorem crash_recovery_underway : ∃ s s' recovered commits, Run .create crashTrace s ∧
    s.step (.crash [record underway] [record underway, record acknowledged]) =
      some (s', .opened recovered) ∧
    CrashSafe crashTrace [record underway, record acknowledged] commits := by
  obtain ⟨s, hrun, hlog⟩ := run_of_exec exec_crashRun
  have hfit : ∀ a, .committed a ∈ crashTrace → Fits a.writes := fun a ha => by
    simp only [crashTrace, List.mem_cons, Event.committed.injEq, reduceCtorEq, List.not_mem_nil,
      false_or, or_false] at ha
    rcases ha with rfl | rfl <;> decide
  have hnofail : ∀ a d, .appended a (some d) ∉ crashTrace := by simp [crashTrace]
  obtain ⟨s', recovered, commits, hstep, -, hsafe, -⟩ := crash_recovery hrun (by decide) hfit
    hnofail hlog (List.Sublist.refl _) (List.Perm.swap _ _ [])
  exact ⟨s, s', recovered, commits, hrun, hstep, hsafe⟩

end TxnDb
