import TxnDb.Reclaim

/-!
# Coming to rest

Once no transaction begins or commits any more, those underway come to their ends, in whatever
order their steps are taken, and none of them waits for another one. Nothing is left of them
then: the oracle is as if it had been recovered at the last timestamp it handed out, and no record
is in flight (`comes_to_rest`).
-/

namespace TxnDb

variable {tr tr' : List Event} {s₀ s s' t : Sys} {e : Event} {h : ℕ} {x : Handle} {inner : Inner}
  {a : Attempt} {o : Oracle} {N : ℕ}

/-- The step takes a commit further, or drops a handle. -/
def Event.Ends : Event → Prop
  | .committed _ | .conflicted _ _ | .appending _ | .appended _ _ | .reported _ | .returned _ _
  | .dropped _ => True
  | _ => False

/-! ## The steps that are left -/

/-- The steps that a handle is from its end, at most. -/
def Handle.rank : Handle → ℕ
  | .committing _ .allocated => 5
  | .committing _ .applied => 4
  | .committing _ .appending => 3
  | .committing _ (.decided _) => 2
  | .reading _ | .active _ | .finished _ _ => 1
  | .closed => 0

theorem Handle.rank_le (x : Handle) : x.rank ≤ 5 * if x = .closed then 0 else 1 := by
  cases x with
  | committing a stage => cases stage <;> simp [rank]
  | _ => simp [rank]

/-- The steps that the handles are from their ends, at most. -/
def Sys.rank (s : Sys) : ℕ := (s.handles.map Handle.rank).sum

/-- The number of handles that are not dropped. -/
def Sys.alive (s : Sys) : ℕ := s.handles.countP (· ≠ .closed)

theorem Sys.rank_le (s : Sys) : s.rank ≤ 5 * s.alive := by
  rw [rank, alive]
  induction s.handles with
  | nil => exact le_rfl
  | cons x l ih =>
    have hx := x.rank_le
    rw [List.map_cons, List.sum_cons, List.countP_cons, Nat.mul_add]
    refine (Nat.add_le_add hx ih).trans_eq ?_
    by_cases hc : x = .closed <;> simp [hc, Nat.add_comm]

theorem Sys.rank_set (hh : s.handle h ≠ .closed) :
    (s.set h x inner).rank + (s.handle h).rank = s.rank + x.rank := by
  have hlt := lt_of_handle hh
  rw [handle, List.getD_eq_getElem _ _ hlt]
  exact List.sum_map_set Handle.rank hlt x

/-- A step that takes a handle to its end. -/
theorem Step.rank_lt (hstep : Step s e s') (he : e.Ends) : s'.rank + 1 ≤ s.rank := by
  have hset : ∀ {h x inner}, s.handle h ≠ .closed → x.rank < (s.handle h).rank →
      (s.set h x inner).rank + 1 ≤ s.rank := fun {h x inner} hh hlt => by
    have hrank := @Sys.rank_set s h x inner hh
    omega
  cases hstep with
  | committed hh _ hstage =>
    refine hset (Sys.ne_closed hh rfl) ?_
    rw [hh, hstage]
    split_ifs <;> simp [Handle.rank]
  | conflicted hh | appending hh | appended hh | appendFailed hh | reported hh | returned hh
  | droppedSnapshot hh | droppedTransaction hh =>
    refine hset (Sys.ne_closed hh rfl) ?_
    rw [hh]
    simp [Handle.rank]
  | _ => exact he.elim

/-! ## No handle waits -/

/-- What is to be appended is to be appended to a log. -/
def Sys.Logging (s : Sys) : Prop := ∀ h, (s.handle h).logging.isSome → s.inner.log.isSome

theorem Step.logging (hstep : Step s e s') (hs : s.Logging) : s'.Logging := by
  intro h' hlog
  rw [hstep.isSome_log]
  -- a handle that has nothing more to append than before
  have hset : ∀ {h x inner}, s.handle h ≠ .closed → (x.logging.isSome → s.inner.log.isSome) →
      ((s.set h x inner).handle h').logging.isSome → s.inner.log.isSome :=
    fun hh hx => Sys.handle_set_keeps (fun x => x.logging.isSome → s.inner.log.isSome) hh (hs h')
      fun _ => hx
  cases hstep with
  | began kind =>
    rw [Sys.handle_add] at hlog
    split_ifs at hlog
    · cases kind <;> cases hlog
    · exact hs h' hlog
  | gotSnapshot | swept | pruned => exact hs h' hlog
  | opened =>
    rw [Sys.handle_map_closed] at hlog
    cases hlog
  | committed hh _ hstage =>
    refine hset (Sys.ne_closed hh rfl) (fun hx => ?_) hlog
    rw [hstage] at hx
    split_ifs at hx with hsome
    · exact hsome
    · cases hx
  | appending hh hlog' | appended hh hlog' | appendFailed hh hlog' =>
    exact hlog' ▸ rfl
  | gotStore hh | gotOwn hh | wrote hh | readOnly hh | allocated hh | conflicted hh | reported hh
  | returned hh | droppedSnapshot hh | droppedTransaction hh =>
    exact hset (Sys.ne_closed hh rfl) (by simp [Handle.logging]) hlog

theorem logging_of_run (h₀ : s₀.Fresh) (hrun : Run s₀ tr s) : s.Logging := by
  refine hrun.invariant (motive := fun _ s => s.Logging) ?_ fun _ hs hstep =>
    hstep.logging hs
  rcases h₀ with rfl | rfl <;> rintro h ⟨⟩

/-- A handle that is not dropped can be taken further, whatever the others do. -/
theorem Sys.Logging.exists_step (hs : s.Logging) (hh : s.handle h ≠ .closed) :
    ∃ act s' e, s.step act = some (s', e) ∧ e.Ends ∧ (s'.handle h).rank < (s.handle h).rank := by
  have hgo : ∀ act x e {inner}, s.step act = some (s.set h x inner, e) → e.Ends →
      x.rank < (s.handle h).rank → ∃ act s' e, s.step act = some (s', e) ∧ e.Ends ∧
        (s'.handle h).rank < (s.handle h).rank := fun _ _ _ _ hstep he hlt =>
    ⟨_, _, _, hstep, he, by rw [Sys.handle_set_self hh]; exact hlt⟩
  cases hx : s.handle h with
  | closed => exact absurd hx hh
  | reading | active =>
    rw [← hx]
    exact hgo (.drop h) .closed (.dropped h) (by simp only [Sys.step, hx]; rfl) trivial
      (by simp [hx, Handle.rank])
  | finished r result =>
    rw [← hx]
    exact hgo (.drop h) .closed (.returned h result) (by simp only [Sys.step, hx]; rfl) trivial
      (by simp [hx, Handle.rank])
  | committing a stage =>
    rw [← hx]
    cases stage with
    | allocated =>
      cases hok : s.inner.store.tryCommit a.readTs a.commitTs a.writes a.reads with
      | error e =>
        exact hgo (.tryCommit h) (.committing a (.decided (.error e))) (.conflicted a e)
          (by simp only [Sys.step, hx, hok]; rfl) trivial (by simp [hx, Handle.rank])
      | ok store =>
        refine hgo (.tryCommit h) (.committing a (if s.inner.log.isSome then .applied
          else .decided (.ok a.commitTs))) (.committed a)
          (by simp only [Sys.step, hx, hok]; rfl) trivial ?_
        split_ifs <;> simp [hx, Handle.rank]
    | applied =>
      obtain ⟨log, hlog⟩ := Option.isSome_iff_exists.1 (hs h (by rw [hx]; rfl))
      exact hgo (.append h) (.committing a .appending) (.appending a)
        (by simp only [Sys.step, hx, hlog]; rfl) trivial (by simp [hx, Handle.rank])
    | appending =>
      obtain ⟨log, hlog⟩ := Option.isSome_iff_exists.1 (hs h (by rw [hx]; rfl))
      exact hgo (.appended h none) (.committing a (.decided (.ok a.commitTs))) (.appended a none)
        (by simp only [Sys.step, hx, hlog]; rfl) trivial (by simp [hx, Handle.rank])
    | decided result =>
      exact hgo (.commitDone h) (.finished a.readTs result) (.reported a)
        (by simp only [Sys.step, hx]; rfl) trivial (by simp [hx, Handle.rank])

/-- From anywhere, the handles can be taken to their ends. -/
theorem Sys.Logging.exists_run (hs : s.Logging) :
    ∃ tr' t, Run s tr' t ∧ (∀ e ∈ tr', e.Ends) ∧ ∀ h, t.handle h = .closed := by
  generalize hn : s.rank = n
  induction n using Nat.strong_induction_on generalizing s with
  | _ n ih =>
    by_cases hclosed : ∀ h, s.handle h = .closed
    · exact ⟨[], s, .nil, nofun, hclosed⟩
    · obtain ⟨h, hh⟩ := not_forall.1 hclosed
      obtain ⟨act, s', e, hact, he, -⟩ := hs.exists_step hh
      have hstep := step_inv hact
      have hrank := hstep.rank_lt he
      obtain ⟨tr', t, hrun, hends, ht⟩ := ih s'.rank (by omega) (hstep.logging hs) rfl
      exact ⟨e :: tr', t, (Trace.Run.single ⟨act, hact⟩).append hrun,
        List.forall_mem_cons.2 ⟨he, hends⟩, ht⟩

/-! ## At rest -/

/-- An oracle with nothing in flight and no reader is one that was recovered. -/
theorem Oracle.eq_recovered (htracks : o.Tracks N fun _ => False)
    (hregisters : o.Registers fun _ => 0) : o = .recovered N := by
  have hread := htracks.readTs_eq fun _ => id
  have hnext := htracks.nextTs
  have hdone := htracks.doneUpto
  have hahead : o.pending.ahead = ∅ := Finset.eq_empty_of_forall_notMem fun t ht => by
    have := htracks.ahead t ht
    omega
  have hreaders : o.readers = ∅ := by
    refine AList.ext (List.eq_nil_iff_forall_not_mem.2 fun e he => ?_)
    have hlookup := hregisters e.1
    rw [if_pos rfl, AList.mem_lookup_iff.2 he] at hlookup
    cases hlookup
  obtain ⟨nextTs, readTs, ⟨doneUpto, ahead⟩, readers⟩ := o
  simp only at hread hnext hdone hahead hreaders
  subst hread hnext hdone hahead hreaders
  rfl

/-- With every handle dropped, nothing is left of the transactions. -/
theorem Reached.at_rest (hr : Reached tr s) (hclosed : ∀ h, s.handle h = .closed) :
    s.inner.oracle = .recovered (issued tr) ∧
      ∀ log, s.inner.log = some log → log.wal.inFlight = [] := by
  have hq := Sys.quiescent_of_closed hclosed
  constructor
  · refine Oracle.eq_recovered (hr.tracks.congr fun t => iff_of_false id (hq.not_holds t))
      (hr.registers.congr fun r => ?_)
    by_contra hne
    obtain ⟨h, hh⟩ := readersAt_pos_iff.1 (Nat.pos_of_ne_zero (Ne.symm hne))
    rw [hclosed h] at hh
    cases hh
  · intro log hlog
    obtain ⟨L, L', hholds⟩ := hr.holds hlog
    have hnil : L' = [] := List.eq_nil_iff_forall_not_mem.2 fun a ha => by
      have happending := hholds.appending a ha
      rw [hclosed] at happending
      cases happending
    rw [hholds.inFlight, hnil]
    rfl

theorem Event.Ends.issue_eq (he : e.Ends) : e.issue N = N := by
  cases e with
  | allocated | opened => exact he.elim
  | _ => rfl

theorem Event.Ends.allocations_eq (he : e.Ends) : allocations [e] = 0 := by
  cases e with
  | allocated => exact he.elim
  | _ => rfl

/-- The handles come closer to their ends, and no timestamp is handed out. -/
theorem Reached.ending (hr : Reached tr s) (hs : s.Logging) (hlt : allocations tr < 2 ^ 64)
    (hrun : Run s tr' t) (hends : ∀ e ∈ tr', e.Ends) :
    (Reached (tr ++ tr') t ∧ t.Logging) ∧ issued (tr ++ tr') = issued tr ∧
      t.rank + tr'.length ≤ s.rank := by
  suffices hinv : (Reached (tr ++ tr') t ∧ t.Logging) ∧ issued (tr ++ tr') = issued tr ∧
      t.rank + tr'.length ≤ s.rank ∧ allocations (tr ++ tr') = allocations tr from
    ⟨hinv.1, hinv.2.1, hinv.2.2.1⟩
  revert hends
  refine hrun.invariant (motive := fun tr' t => (∀ e ∈ tr', e.Ends) →
    (Reached (tr ++ tr') t ∧ t.Logging) ∧ issued (tr ++ tr') = issued tr ∧
      t.rank + tr'.length ≤ s.rank ∧ allocations (tr ++ tr') = allocations tr) ?_ ?_
  · rw [List.append_nil]
    exact fun _ => ⟨⟨hr, hs⟩, rfl, le_rfl, rfl⟩
  · intro tr' t e t' _ ih hstep hends
    obtain ⟨⟨hr, hs⟩, hissued, hrank, halloc⟩ := ih fun e he => hends e (List.mem_append_left _ he)
    have he := hends e (by simp)
    have hrank' := hstep.rank_lt he
    rw [← List.append_assoc, issued_append_singleton, he.issue_eq, allocations_append,
      he.allocations_eq, List.length_append, List.length_singleton]
    refine ⟨⟨hr.step hstep ?_ ?_, hstep.logging hs⟩, hissued, by omega, halloc⟩
    · rwa [allocations_append, he.allocations_eq, Nat.add_zero, halloc]
    · rintro ⟨L, rfl⟩
      exact he.elim

/-- In every run, however the transactions underway are taken to their ends: none of them waits for
    another one, they get there in five steps each at most, and when all did, the oracle is as if
    it had been recovered at the last timestamp handed out, and no record is in flight. -/
theorem comes_to_rest (h₀ : s₀.Fresh) (hrun : Run s₀ tr s) (hlt : allocations tr < 2 ^ 64)
    (hfit : Recoverable tr) :
    (∃ tr' t, Run s tr' t ∧ (∀ e ∈ tr', e.Ends) ∧ ∀ h, t.handle h = .closed) ∧
      ∀ tr' t, Run s tr' t → (∀ e ∈ tr', e.Ends) → tr'.length ≤ 5 * s.alive ∧
        (∀ h, t.handle h ≠ .closed → ∃ act t' e, t.step act = some (t', e) ∧ e.Ends ∧
          (t'.handle h).rank < (t.handle h).rank) ∧
        ((∀ h, t.handle h = .closed) → t.inner.oracle = .recovered (issued tr) ∧
          ∀ log, t.inner.log = some log → log.wal.inFlight = []) := by
  have hs := logging_of_run h₀ hrun
  have hr := reached_of_run h₀ hrun hlt hfit
  refine ⟨hs.exists_run, fun tr' t hrun' hends => ?_⟩
  obtain ⟨⟨hr', hs'⟩, hissued, hrank⟩ := hr.ending hs hlt hrun' hends
  have halive := s.rank_le
  exact ⟨by omega, fun h hh => hs'.exists_step hh, fun hclosed => hissued ▸ hr'.at_rest hclosed⟩

/-! A snapshot, a commit that has its timestamp, and one whose record is being appended: the last
one ends first, and is not logged. -/

def waiting : Attempt := ⟨0, 0, 1, [⟨[120], some [1]⟩], []⟩

def lingering : Attempt := ⟨2, 0, 2, [⟨[121], some [2]⟩], []⟩

def restlessRun : List Action :=
  [.begin .transaction, .put 0 [120] [1], .begin .snapshot, .begin .transaction, .put 2 [121] [2],
    .commit 0 waiting.writes [], .commit 2 lingering.writes [], .tryCommit 2, .append 2]

def restlessTrace : List Event :=
  [.began 0 .transaction 0, .wrote 0 [120] (some [1]), .began 1 .snapshot 0,
    .began 2 .transaction 0, .wrote 2 [121] (some [2]), .allocated waiting, .allocated lingering,
    .committed lingering, .appending lingering]

def endingRun : List Action :=
  [.appended 2 (some "full"), .commitDone 2, .drop 2, .drop 1, .tryCommit 0, .append 0,
    .appended 0 none, .commitDone 0, .drop 0]

def endingTrace : List Event :=
  [.appended lingering (some "full"), .reported lingering,
    .returned 2 (.error (.durability "full")), .dropped 1, .committed waiting, .appending waiting,
    .appended waiting none, .reported waiting, .returned 0 (.ok 1)]

theorem exec_restlessRun : (Trace.exec Sys.step .create restlessRun).map (Prod.map id fun s =>
    (s.alive, (Trace.exec Sys.step s endingRun).map (Prod.map id Sys.alive))) =
      some (restlessTrace, 3, some (endingTrace, 0)) := by
  decide +kernel

theorem comes_to_rest_restless : ∃ s t, Run .create restlessTrace s ∧ Run s endingTrace t ∧
    endingTrace.length ≤ 5 * s.alive ∧ s.alive = 3 ∧ t.inner.oracle = .recovered 2 := by
  obtain ⟨s, hrun, hs⟩ := run_of_exec exec_restlessRun
  obtain ⟨halive, hexec⟩ := Prod.mk.inj hs
  obtain ⟨t, hrun', ht⟩ := run_of_exec hexec
  have hclosed : ∀ h, t.handle h = .closed := fun h => by
    by_contra hne
    have hmem := List.countP_eq_zero.1 ht _ (List.getElem_mem (Sys.lt_of_handle hne))
    rw [← List.getD_eq_getElem _ _ (Sys.lt_of_handle hne)] at hmem
    exact hmem (decide_eq_true hne)
  obtain ⟨-, hrest⟩ := comes_to_rest (.inr rfl) hrun (by decide) fun ⟨L, hL⟩ =>
    absurd hL (by simp [restlessTrace])
  obtain ⟨hlength, -, hclosing⟩ := hrest endingTrace t hrun' (by simp [endingTrace, Event.Ends])
  exact ⟨s, t, hrun, hrun', hlength, halive, (hclosing hclosed).1⟩

end TxnDb
