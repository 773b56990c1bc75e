import TxnDb.Visibility

/-!
# The timestamp of the last commit

The database reports the watermark as the timestamp of its last commit. But the
watermark moves on over the attempts that finish, in conflict or not, so it is
the timestamp of a commit only where it does not stop at a rejected attempt
(`reportsCommits_iff`): where, once every timestamp up to that of a rejected
attempt is reported as done, the next one is too (`PassesRejected`).

With no rejected attempt there is nothing to pass, and what is reported is right
in every state (`PassesRejected.of_no_conflict`).
-/

namespace TxnDb

variable {tr pre post : List Event} {s s' m : Sys} {h t : ℕ} {e : Event} {a b : Attempt}
  {x : TxnError} {result : Except TxnError ℕ}

/-- What is reported as the last commit is `0` or the timestamp of a transaction that committed,
    and the highest one, `0` if there is none, whenever no commit is in flight. -/
def ReportsCommits (tr : List Event) (s : Sys) : Prop :=
  (s.inner.lastCommitted = 0 ∨ ∃ a, .committed a ∈ tr ∧ a.commitTs = s.inner.lastCommitted) ∧
    (s.Quiescent → s.inner.lastCommitted = highest (history tr))

/-- The timestamp `t` was reported as done. -/
def Reported (tr : List Event) (t : ℕ) : Prop := ∃ a, .reported a ∈ tr ∧ a.commitTs = t

/-- If all timestamps up to that of a rejected attempt were reported, the next one was too. -/
def PassesRejected (tr : List Event) : Prop :=
  ∀ a x, .conflicted a x ∈ tr → (∀ t, 0 < t → t ≤ a.commitTs → Reported tr t) →
    Reported tr (a.commitTs + 1)

/-- Nothing has to be passed if nothing is rejected. -/
theorem PassesRejected.of_no_conflict (hno : ∀ a x, .conflicted a x ∉ tr) : PassesRejected tr :=
  fun a x hc => absurd hc (hno a x)

/-! ## The timestamps handed out -/

/-- The attempt was committed, or rejected. -/
def Judged (tr : List Event) (a : Attempt) : Prop :=
  .committed a ∈ tr ∨ ∃ x, .conflicted a x ∈ tr

/-- What the timestamps handed out are, and what has become of them. -/
structure Ledger (tr : List Event) (s : Sys) : Prop where
  le : ∀ {a}, .allocated a ∈ tr → 0 < a.commitTs ∧ a.commitTs ≤ issued tr
  /-- Every timestamp up to the last one was handed out. -/
  exists_allocated : ∀ {t}, 0 < t → t ≤ issued tr → ∃ a, .allocated a ∈ tr ∧ a.commitTs = t
  inj : ∀ {a b}, .allocated a ∈ tr → .allocated b ∈ tr → a.commitTs = b.commitTs → a = b
  /-- An attempt that has come to its result was committed or rejected. -/
  decided : ∀ {h a result}, s.handle h = .committing a (.decided result) → Judged tr a
  reported : ∀ {a}, .reported a ∈ tr → Judged tr a ∧ .allocated a ∈ tr
  judged : ∀ {a}, Judged tr a → .allocated a ∈ tr

theorem ledger_new : Ledger [] .new where
  le ha := absurd ha List.not_mem_nil
  exists_allocated h0 ht := absurd h0 (not_lt.2 ht)
  inj ha := absurd ha List.not_mem_nil
  decided hh := by cases hh
  reported ha := absurd ha List.not_mem_nil
  judged ha := by
    rcases ha with ha | ⟨x, ha⟩ <;> exact absurd ha List.not_mem_nil

theorem Judged.mono (hj : Judged tr a) : Judged (tr ++ [e]) a :=
  hj.imp (List.mem_append_left _) fun ⟨x, hx⟩ => ⟨x, List.mem_append_left _ hx⟩

/-- An attempt in progress was handed out its timestamp. -/
theorem Outcomes.allocated_mem (ho : Outcomes tr s) {stage : Stage}
    (hh : s.handle h = .committing a stage) : .allocated a ∈ tr :=
  mem_of_mem_cycle (ho.allocated hh)

/-- An attempt that comes to its result is committed or rejected, or was. -/
theorem Ledger.decided_step (hl : Ledger tr s) (ho : Outcomes tr s) (hstep : Step s e s')
    (hh : s'.handle h = .committing a (.decided result)) : Judged (tr ++ [e]) a := by
  have hnew : e ∈ tr ++ [e] := List.mem_append_right _ (List.mem_singleton_self e)
  rcases hstep.committing_inv hh with hh | ⟨-, hst⟩ | ⟨rfl, -⟩ | ⟨x, rfl, -⟩ | ⟨-, hst, -⟩ |
    ⟨-, -, hh⟩ | ⟨detail, -, -, hh⟩
  · exact (hl.decided hh).mono
  · cases hst
  · exact .inl hnew
  · exact .inr ⟨x, hnew⟩
  · cases hst
  -- a record is appended once its transaction is committed
  all_goals exact .inl (List.mem_append_left _ (mem_of_mem_cycle (ho.applied hh trivial)))

/-- An attempt that is committed or rejected was handed out its timestamp. -/
theorem Ledger.judged_step (hl : Ledger tr s) (ho : Outcomes tr s) (hstep : Step s e s')
    (hj : Judged (tr ++ [e]) a) : .allocated a ∈ tr := by
  have hmem : ∀ {e'}, e' ∈ tr ++ [e] → e' ∈ tr ∨ e' = e := fun he =>
    (List.mem_append.1 he).imp_right List.mem_singleton.1
  rcases hj with ha | ⟨x, ha⟩
  · rcases hmem ha with ha | rfl
    · exact hl.judged (.inl ha)
    · cases hstep with
      | committed hh => exact ho.allocated_mem hh
  · rcases hmem ha with ha | rfl
    · exact hl.judged (.inr ⟨x, ha⟩)
    · cases hstep with
      | conflicted hh => exact ho.allocated_mem hh

/-- What becomes of the timestamps in a step. -/
theorem Ledger.step (hl : Ledger tr s) (ho : Outcomes tr s) (hinv : Inv tr s)
    (hstep : Step s e s') (hlt : allocations (tr ++ [e]) < 2 ^ 64) (hopen : ∀ L, e ≠ .opened L) :
    Ledger (tr ++ [e]) s' := by
  have hmem : ∀ {e'}, e' ∈ tr ++ [e] → e' ∈ tr ∨ e' = e := fun he =>
    (List.mem_append.1 he).imp_right List.mem_singleton.1
  have hold : ∀ {e'}, e' ∈ tr → e' ∈ tr ++ [e] := List.mem_append_left _
  have hnew : e ∈ tr ++ [e] := List.mem_append_right _ (List.mem_singleton_self e)
  -- a timestamp handed out now is the one after all others
  have hnext : ∀ {a}, e = .allocated a → a.commitTs = issued tr + 1 := by
    rintro a rfl
    exact hinv.commitTs_allocated hstep hlt
  have hissued : issued tr ≤ issued (tr ++ [e]) := (hinv.advance hstep hlt hopen).2.2.1
  refine ⟨fun {a} ha => ?_, fun {t} h0 ht => ?_, fun {a b} ha hb heq => ?_,
    hl.decided_step ho hstep, fun {a} ha => ?_, fun ha => hold (hl.judged_step ho hstep ha)⟩
  · rcases hmem ha with ha | rfl
    · exact ⟨(hl.le ha).1, (hl.le ha).2.trans hissued⟩
    · rw [issued_append_singleton]
      exact ⟨hnext rfl ▸ Nat.succ_pos _, le_rfl⟩
  · by_cases hle : t ≤ issued tr
    · obtain ⟨a, ha, hts⟩ := hl.exists_allocated h0 hle
      exact ⟨a, hold ha, hts⟩
    · rw [issued_append_singleton] at ht
      cases e with
      | allocated a =>
        have hts := hnext rfl
        rw [Event.issue] at ht
        exact ⟨a, hnew, by omega⟩
      | opened L => exact absurd rfl (hopen L)
      | _ => exact absurd ht hle
  · rcases hmem ha with ha | ha <;> rcases hmem hb with hb | hb
    · exact hl.inj ha hb heq
    · have := (hl.le ha).2
      have := hnext hb.symm
      omega
    · have := (hl.le hb).2
      have := hnext ha.symm
      omega
    · exact Event.allocated.inj (ha.trans hb.symm)
  · rcases hmem ha with ha | rfl
    · exact ⟨(hl.reported ha).1.mono, hold (hl.reported ha).2⟩
    · cases hstep with
      | reported hh => exact ⟨(hl.decided hh).mono, hold (ho.allocated_mem hh)⟩

/-- What the timestamps handed out are, in every run in memory. -/
theorem ledger_of_run (hrun : Run .new tr s) (hlt : allocations tr < 2 ^ 64) : Ledger tr s := by
  have hno : ∀ {tr s}, Run .new tr s → ∀ L, .opened L ∉ tr := fun hrun =>
    (log_eq_none_of_run hrun).2
  refine hrun.invariant (motive := fun tr s => allocations tr < 2 ^ 64 → Ledger tr s)
    (fun _ => ledger_new) (fun {tr s e s'} hrun ih hstep hlt => ?_) hlt
  have hlt' : allocations tr < 2 ^ 64 := allocations_lt_of_append hlt
  have ho := outcomes_of_run (.inl rfl) hrun hlt' fun ⟨L, hL⟩ => absurd hL (hno hrun L)
  exact (ih hlt').step ho (reached_of_run_new hrun hlt').toInv hstep hlt
    (hstep.log_eq_none (log_eq_none_of_run hrun).1).2

/-! ## The watermark -/

/-- The timestamps handed out are held until they are reported. -/
theorem Ledger.reported_iff (hl : Ledger tr s) (ho : Outcomes tr s) (hinv : Inv tr s)
    (hcycle : cycle tr = tr) (h0 : 0 < t) (ht : t ≤ issued tr) : Reported tr t ↔ ¬s.Holds t := by
  constructor
  · rintro ⟨a, ha, rfl⟩ hholds
    obtain ⟨h, hholds⟩ := hholds
    obtain ⟨b, stage, hh, heq⟩ := Sys.exists_committing hholds
    obtain rfl := hl.inj (ho.allocated_mem hh) (hl.reported ha).2 heq
    have hd := (ho.reported (hcycle.symm ▸ ha)).2
    rw [(hinv.attempts hh).id, hh] at hd
    exact hd
  · intro hholds
    obtain ⟨a, ha, rfl⟩ := hl.exists_allocated h0 ht
    rcases ho.held (hcycle.symm ▸ ha) with ⟨stage, hh⟩ | hrep
    · exact absurd ⟨a.id, congrArg Handle.commitTs hh⟩ hholds
    · exact ⟨a, mem_of_mem_cycle hrep, rfl⟩

/-- The timestamps at or below the watermark are those up to which all are reported. -/
theorem Ledger.le_readTs_iff (hl : Ledger tr s) (ho : Outcomes tr s) (hinv : Inv tr s)
    (hcycle : cycle tr = tr) (ht : t ≤ issued tr) :
    t ≤ s.inner.readTs ↔ ∀ u, 0 < u → u ≤ t → Reported tr u := by
  refine (hinv.tracks.le_readTs_iff ht).trans ⟨?_, ?_⟩
  · exact fun hall u h0 hu => (hl.reported_iff ho hinv hcycle h0 (hu.trans ht)).2 (hall u hu)
  · rintro hall u hu ⟨h, hholds⟩
    obtain ⟨a, stage, hh, rfl⟩ := Sys.exists_committing hholds
    have h0 := (hl.le (ho.allocated_mem hh)).1
    exact (hl.reported_iff ho hinv hcycle h0 (hu.trans ht)).1 (hall _ h0 hu) ⟨h, hholds⟩

/-- A rejected attempt has not the timestamp of one that committed. -/
theorem Ledger.ne_of_conflicted (hl : Ledger tr s) (hv : Verdicts tr s)
    (ha : .conflicted a x ∈ tr) (hb : .committed b ∈ tr) : b.commitTs ≠ a.commitTs := fun heq => by
  obtain rfl := hl.inj (hl.judged (.inl hb)) (hl.judged (.inr ⟨x, ha⟩)) heq
  exact (hv.rejected (.inr ⟨b, x, rfl, ha⟩)).2.2 b hb rfl

/-- The watermark does not stop at a rejected attempt that is passed. -/
theorem Ledger.readTs_committed (hl : Ledger tr s) (ho : Outcomes tr s) (hinv : Inv tr s)
    (hcycle : cycle tr = tr) (hpass : PassesRejected tr) :
    s.inner.readTs = 0 ∨ ∃ a, .committed a ∈ tr ∧ a.commitTs = s.inner.readTs := by
  refine (Nat.eq_zero_or_pos _).imp_right fun h0 => ?_
  have hall := (hl.le_readTs_iff ho hinv hcycle hinv.tracks.le).1 le_rfl
  obtain ⟨a, ha, hac⟩ := hall _ h0 le_rfl
  rcases (hl.reported ha).1 with hc | ⟨x, hc⟩
  · exact ⟨a, hc, hac⟩
  · -- the timestamp after that of the attempt is reported, so the watermark is above both
    have hnext := hpass a x hc fun t h0 ht => hall t h0 (ht.trans_eq hac)
    rw [hac] at hnext
    obtain ⟨b, hb, hbc⟩ := hnext
    have hbi := (hl.le (hl.reported hb).2).2
    rw [hbc] at hbi
    refine absurd ((hl.le_readTs_iff ho hinv hcycle hbi).2 fun u h0 hu => ?_)
      (Nat.not_succ_le_self _)
    rcases hu.lt_or_eq with hu | rfl
    · exact hall u h0 (Nat.le_of_lt_succ hu)
    · exact ⟨b, hb, hbc⟩

/-- In every state reached, what is reported is right iff the rejected attempts are passed. -/
theorem reportsCommits_iff (hrun : Run .new tr s) (hlt : allocations tr < 2 ^ 64) :
    ReportsCommits tr s ↔ PassesRejected tr := by
  have hno := (log_eq_none_of_run hrun).2
  have hfit : Recoverable tr := fun ⟨L, hL⟩ => absurd hL (hno L)
  have hcycle := cycle_eq_self hno
  have hinv := (reached_of_run_new hrun hlt).toInv
  have ho := outcomes_of_run (.inl rfl) hrun hlt hfit
  have hl := ledger_of_run hrun hlt
  constructor
  · rintro ⟨hcommit, -⟩ a x ha hall
    obtain ⟨h0, hissued⟩ := hl.le (hl.judged (.inr ⟨x, ha⟩))
    have hread := (hl.le_readTs_iff ho hinv hcycle hissued).2 hall
    -- the watermark is not at the timestamp of the attempt, which did not commit
    have hne : s.inner.readTs ≠ a.commitTs := fun heq => by
      rcases hcommit with hz | ⟨b, hb, hbc⟩
      · exact absurd (heq.symm.trans hz) h0.ne'
      · have hv := verdicts_of_run (.inl rfl) hrun hlt hfit
        exact hl.ne_of_conflicted hv ha hb (hbc.trans heq)
    exact (hl.le_readTs_iff ho hinv hcycle hinv.tracks.le).1 le_rfl _ (Nat.succ_pos _)
      (lt_of_le_of_ne hread hne.symm)
  · intro hpass
    have hcommit := hl.readTs_committed ho hinv hcycle hpass
    refine ⟨hcommit, fun hq => le_antisymm ?_ ?_⟩
    · rcases hcommit with hz | ⟨a, ha, hac⟩
      · exact hz.trans_le (Nat.zero_le _)
      · exact hac.symm.trans_le (le_highest ((mem_history hno).2 ha))
    -- with nothing in flight, the watermark is the last timestamp handed out
    · have hread : s.inner.lastCommitted = issued tr := hinv.tracks.readTs_eq hq.not_holds
      exact hread ▸ highest_le hinv.commit_le

/-- In every run, what is reported as the last commit is right in every state on the way iff
    the rejected attempts are passed at every point on the way. -/
theorem lastCommitted_iff (hrun : Run .new tr s) (hlt : allocations tr < 2 ^ 64) :
    (∀ pre post m, tr = pre ++ post → Run .new pre m → ReportsCommits pre m) ↔
      ∀ pre post, tr = pre ++ post → PassesRejected pre := by
  constructor
  · rintro hall pre post rfl
    obtain ⟨m, hpre, -⟩ := Trace.Run.split hrun
    exact (reportsCommits_iff hpre (allocations_lt_of_append hlt)).1 (hall pre post m rfl hpre)
  · rintro hall pre post m rfl hpre
    exact (reportsCommits_iff hpre (allocations_lt_of_append hlt)).2 (hall pre post rfl)

/-- Nothing is rejected where a commit is only overtaken. -/
theorem lastCommitted_iff_overtaken : ∃ s, Run .new overtakenTrace s ∧
    ∀ pre post m, overtakenTrace = pre ++ post → Run .new pre m → ReportsCommits pre m := by
  obtain ⟨s, hrun, -⟩ := run_of_exec exec_overtakenRun
  refine ⟨s, hrun, (lastCommitted_iff hrun (by decide)).2 fun pre post htr => ?_⟩
  refine .of_no_conflict fun a x hc => ?_
  have hmem : .conflicted a x ∈ overtakenTrace := htr ▸ List.mem_append_left _ hc
  simp [overtakenTrace] at hmem

/-! ## A rejected attempt

Two transactions put the same key. The first commits, the other is rejected. -/

def rejectedRun : List Action :=
  [.begin .transaction, .begin .transaction, .put 0 [120] [1], .put 1 [120] [2],
    .commit 0 [⟨[120], some [1]⟩] [], .tryCommit 0, .commitDone 0, .drop 0,
    .commit 1 [⟨[120], some [2]⟩] [], .tryCommit 1, .commitDone 1, .drop 1]

def rejectedTrace : List Event :=
  [.began 0 .transaction 0, .began 1 .transaction 0, .wrote 0 [120] (some [1]),
    .wrote 1 [120] (some [2]), .allocated ⟨0, 0, 1, [⟨[120], some [1]⟩], []⟩,
    .committed ⟨0, 0, 1, [⟨[120], some [1]⟩], []⟩, .reported ⟨0, 0, 1, [⟨[120], some [1]⟩], []⟩,
    .returned 0 (.ok 1), .allocated ⟨1, 0, 2, [⟨[120], some [2]⟩], []⟩,
    .conflicted ⟨1, 0, 2, [⟨[120], some [2]⟩], []⟩ (.conflict 1),
    .reported ⟨1, 0, 2, [⟨[120], some [2]⟩], []⟩, .returned 1 (.error (.conflict 1))]

theorem exec_rejectedRun : (Trace.exec Sys.step .new rejectedRun).map
    (Prod.map id fun s => (decide s.Quiescent, s.inner.lastCommitted)) =
      some (rejectedTrace, true, 2) := by
  decide +kernel

/-- The timestamp of the rejected attempt is reported as that of the last commit. -/
theorem rejected_reported : ∃ s, Run .new rejectedTrace s ∧ allocations rejectedTrace < 2 ^ 64 ∧
    s.Quiescent ∧ s.inner.lastCommitted = 2 ∧
    (∀ a, .committed a ∈ rejectedTrace → a.commitTs = 1) ∧ ¬ReportsCommits rejectedTrace s := by
  obtain ⟨s, hrun, hs⟩ := run_of_exec exec_rejectedRun
  obtain ⟨hq, hlast⟩ := Prod.mk.inj hs
  have honly : ∀ a, .committed a ∈ rejectedTrace → a.commitTs = 1 := by simp [rejectedTrace]
  refine ⟨s, hrun, by decide, of_decide_eq_true hq, hlast, honly, fun ⟨hcommit, _⟩ => ?_⟩
  rw [hlast] at hcommit
  obtain ⟨a, ha, hac⟩ := hcommit.resolve_left (by decide)
  rw [honly a ha] at hac
  exact absurd hac (by decide)

end TxnDb
