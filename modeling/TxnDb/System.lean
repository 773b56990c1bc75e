import TxnDb.System.Basic

/-!
# The trace, and the steps

Two functions of the trace say what happened since the database was last opened:

* `history`: the transactions committed, in the order in which their
  `try_commit` succeeded; after a crash, those recovered, in the order in which
  they were installed;
* `issued`: the last timestamp handed out.

`Step` says what a step is, event by event; `step_inv` is that every step of the
system is one of these.
-/

namespace TxnDb

open Mvcc

/-! ## The trace -/

/-- The committed transactions, from those of the history `H` on. -/
def Event.extend (H : List Attempt) : Event → List Attempt
  | .committed a => H ++ [a]
  | .opened recovered => recovered
  | _ => H

/-- The history: the transactions committed, in order. -/
def history (tr : List Event) : List Attempt := tr.foldl Event.extend []

/-- The highest commit timestamp of some transactions, `0` if there is none. -/
def highest (L : List Attempt) : ℕ := L.foldl (fun m a => max m a.commitTs) 0

/-- The last timestamp handed out, from `N` on. -/
def Event.issue (N : ℕ) : Event → ℕ
  | .allocated a => a.commitTs
  | .opened recovered => highest recovered
  | _ => N

/-- The last timestamp handed out (or recovered). -/
def issued (tr : List Event) : ℕ := tr.foldl Event.issue 0

/-- The event hands out a timestamp. -/
def Event.allocates : Event → Bool
  | .allocated _ => true
  | _ => false

/-- The number of timestamps handed out. -/
def allocations (tr : List Event) : ℕ := tr.countP Event.allocates

@[simp] theorem history_nil : history [] = [] := rfl

@[simp] theorem issued_nil : issued [] = 0 := rfl

@[simp] theorem history_append_singleton {tr : List Event} {e : Event} :
    history (tr ++ [e]) = e.extend (history tr) := by
  simp [history]

@[simp] theorem issued_append_singleton {tr : List Event} {e : Event} :
    issued (tr ++ [e]) = e.issue (issued tr) := by
  simp [issued]

theorem allocations_append {tr tr' : List Event} :
    allocations (tr ++ tr') = allocations tr + allocations tr' :=
  List.countP_append

theorem allocations_lt_of_append {tr tr' : List Event} {n : ℕ}
    (h : allocations (tr ++ tr') < n) : allocations tr < n :=
  (Nat.le_add_right _ _).trans_lt (allocations_append ▸ h)

/-! ## Steps -/

/-- What a step is, for each event it is observed as. -/
inductive Step (s : Sys) : Event → Sys → Prop
  | began (kind : Kind) :
    Step s (.began s.handles.length kind s.inner.readTs)
      (s.add (.begin s.inner.readTs kind) s.inner.beginReader.2)
  | gotSnapshot {h r : ℕ} {k : Key} (hh : s.handle h = .reading r) :
    Step s (.got h r k (s.inner.store.get k r) false) s
  | gotStore {h : ℕ} {tx : Transaction} {k : Key} (hh : s.handle h = .active tx)
      (hk : tx.writes.lookup k = none) :
    Step s (.got h tx.readTs k (s.inner.store.get k tx.readTs) false)
      (s.set h (.active { tx with reads := tx.reads.map (insert k) }) s.inner)
  | gotOwn {h : ℕ} {tx : Transaction} {k : Key} {v : Option Value} (hh : s.handle h = .active tx)
      (hk : tx.writes.lookup k = some v) :
    Step s (.got h tx.readTs k v true) (s.set h (.active tx) s.inner)
  | wrote {h : ℕ} {tx : Transaction} {k : Key} {v : Option Value} (hh : s.handle h = .active tx) :
    Step s (.wrote h k v) (s.set h (.active { tx with writes := tx.writes.insert k v }) s.inner)
  | readOnly {h : ℕ} {tx : Transaction} (hh : s.handle h = .active tx)
      (hw : tx.writes.entries = []) :
    Step s (.readOnly h tx.readTs) (s.set h (.finished tx.readTs (.ok tx.readTs)) s.inner)
  | allocated {h : ℕ} {tx : Transaction} {a : Attempt} (hh : s.handle h = .active tx)
      (hid : a.id = h) (hr : a.readTs = tx.readTs) (hc : a.commitTs = s.inner.oracle.nextTs)
      (hw : a.writes.Perm tx.writes.entries) (hne : a.writes ≠ [])
      (hreads : a.reads.toFinset = tx.commitReads) :
    Step s (.allocated a) (s.set h (.committing a .allocated) s.inner.allocCommitTs.2)
  | committed {h : ℕ} {a : Attempt} {store : MemoryStore} {stage : Stage}
      (hh : s.handle h = .committing a .allocated)
      (hok : s.inner.store.tryCommit a.readTs a.commitTs a.writes a.reads = .ok store)
      (hstage : stage = if s.inner.log.isSome then .applied else .decided (.ok a.commitTs)) :
    Step s (.committed a) (s.set h (.committing a stage) { s.inner with store })
  | conflicted {h : ℕ} {a : Attempt} {e : TxnError} (hh : s.handle h = .committing a .allocated)
      (herr : s.inner.store.tryCommit a.readTs a.commitTs a.writes a.reads = .error e) :
    Step s (.conflicted a e) (s.set h (.committing a (.decided (.error e))) s.inner)
  | appending {h : ℕ} {a : Attempt} {log : CommitLog} (hh : s.handle h = .committing a .applied)
      (hlog : s.inner.log = some log) :
    Step s (.appending a)
      (s.set h (.committing a .appending) { s.inner with log := some (log.append (record a)) })
  | appended {h : ℕ} {a : Attempt} {log : CommitLog} (hh : s.handle h = .committing a .appending)
      (hlog : s.inner.log = some log) :
    Step s (.appended a none)
      (s.set h (.committing a (.decided (.ok a.commitTs)))
        { s.inner with log := some (log.synced (record a)) })
  | appendFailed {h : ℕ} {a : Attempt} {log : CommitLog} {detail : String}
      (hh : s.handle h = .committing a .appending) (hlog : s.inner.log = some log) :
    Step s (.appended a (some detail))
      (s.set h (.committing a (.decided (.error (.durability detail))))
        { s.inner with log := some (log.failed (record a)) })
  | reported {h : ℕ} {a : Attempt} {result : Except TxnError ℕ}
      (hh : s.handle h = .committing a (.decided result)) :
    Step s (.reported a) (s.set h (.finished a.readTs result) (s.inner.commitDone a.commitTs))
  | returned {h r : ℕ} {result : Except TxnError ℕ} (hh : s.handle h = .finished r result) :
    Step s (.returned h result) (s.set h .closed (s.inner.endReader r))
  | droppedSnapshot {h r : ℕ} (hh : s.handle h = .reading r) :
    Step s (.dropped h) (s.set h .closed (s.inner.endReader r))
  | droppedTransaction {h : ℕ} {tx : Transaction} (hh : s.handle h = .active tx) :
    Step s (.dropped h) (s.set h .closed (s.inner.endReader tx.readTs))
  | swept :
    Step s (.swept s.inner.oracle.lowWatermark)
      { s with sweeps := s.sweeps ++ [⟨s.inner.oracle.lowWatermark, 0, 0⟩] }
  | pruned {g : ℕ} {sweep : Sweep} {reclaimed : ℕ} (hg : s.sweeps[g]? = some sweep)
      (hlt : sweep.next < s.inner.store.shards.length) :
    Step s (.pruned g sweep.next)
      { s with
        inner := { s.inner with
          store := (s.inner.store.pruneShard sweep.lowWatermark sweep.next).1 }
        sweeps := s.sweeps.set g ⟨sweep.lowWatermark, sweep.next + 1, reclaimed⟩ }
  | opened {old : CommitLog} {survivors log : List Record} {inner : Inner}
      {recovered : List Attempt} (hlog : s.inner.log = some old)
      (hsub : survivors.Sublist old.wal.inFlight)
      (hperm : log.Perm (old.wal.records ++ survivors)) (hopen : Inner.openLog log = .ok inner)
      (hrec : recoveredAttempts log = .ok recovered) :
    Step s (.opened recovered) ⟨inner, s.handles.map fun _ => .closed, []⟩

section

variable {s s' : Sys} {e : Event} {h : ℕ}

/-- A read is served by the store, or by the transaction. -/
theorem step_get_inv {key : Key} (hstep : s.step (.get h key) = some (s', e)) : Step s e s' := by
  simp only [Sys.step] at hstep
  split at hstep
  · next hh =>
    obtain ⟨rfl, rfl⟩ := Prod.mk.inj (Option.some.inj hstep)
    exact .gotSnapshot hh
  · next tx hh =>
    cases hk : tx.writes.lookup key with
    | none =>
      simp only [Transaction.get, hk] at hstep
      obtain ⟨rfl, rfl⟩ := Prod.mk.inj (Option.some.inj hstep)
      exact .gotStore hh hk
    | some v =>
      simp only [Transaction.get, hk] at hstep
      obtain ⟨rfl, rfl⟩ := Prod.mk.inj (Option.some.inj hstep)
      exact .gotOwn hh hk
  · cases hstep

/-- A transaction without writes finishes, and one with writes is given a timestamp. -/
theorem step_commit_inv {batch : List WriteEntry} {reads : List Key}
    (hstep : s.step (.commit h batch reads) = some (s', e)) : Step s e s' := by
  simp only [Sys.step] at hstep
  split at hstep
  · next tx hh =>
    split_ifs at hstep with hcond hne
    · obtain ⟨rfl, rfl⟩ := Prod.mk.inj (Option.some.inj hstep)
      exact .readOnly hh (hne ▸ hcond.1).nil_eq.symm
    · obtain ⟨rfl, rfl⟩ := Prod.mk.inj (Option.some.inj hstep)
      exact .allocated hh rfl rfl rfl hcond.1 hne hcond.2.2
  · cases hstep

/-- The store decides a commit. -/
theorem step_tryCommit_inv (hstep : s.step (.tryCommit h) = some (s', e)) : Step s e s' := by
  simp only [Sys.step] at hstep
  split at hstep
  · next a hh =>
    split at hstep
    · next err herr =>
      obtain ⟨rfl, rfl⟩ := Prod.mk.inj (Option.some.inj hstep)
      exact .conflicted hh herr
    · next store hok =>
      obtain ⟨rfl, rfl⟩ := Prod.mk.inj (Option.some.inj hstep)
      exact .committed hh hok rfl
  · cases hstep

/-- The append of a record returns, or fails. -/
theorem step_appended_inv {failure : Option String}
    (hstep : s.step (.appended h failure) = some (s', e)) : Step s e s' := by
  simp only [Sys.step] at hstep
  split at hstep
  · next hh hlog =>
    split at hstep
    · obtain ⟨rfl, rfl⟩ := Prod.mk.inj (Option.some.inj hstep)
      exact .appended hh hlog
    · obtain ⟨rfl, rfl⟩ := Prod.mk.inj (Option.some.inj hstep)
      exact .appendFailed hh hlog
  · cases hstep

/-- A handle that is dropped is no longer a reader. -/
theorem step_drop_inv (hstep : s.step (.drop h) = some (s', e)) : Step s e s' := by
  simp only [Sys.step] at hstep
  split at hstep
  · next hh =>
    obtain ⟨rfl, rfl⟩ := Prod.mk.inj (Option.some.inj hstep)
    exact .droppedSnapshot hh
  · next hh =>
    obtain ⟨rfl, rfl⟩ := Prod.mk.inj (Option.some.inj hstep)
    exact .droppedTransaction hh
  · next hh =>
    obtain ⟨rfl, rfl⟩ := Prod.mk.inj (Option.some.inj hstep)
    exact .returned hh
  · cases hstep

/-- The database is opened on the records of a log that survive. -/
theorem step_crash_inv {survivors log : List Record}
    (hstep : s.step (.crash survivors log) = some (s', e)) : Step s e s' := by
  simp only [Sys.step] at hstep
  split at hstep
  · next hlog =>
    split_ifs at hstep with hcond
    split at hstep
    · next hopen hrec =>
      obtain ⟨rfl, rfl⟩ := Prod.mk.inj (Option.some.inj hstep)
      exact .opened hlog hcond.1 hcond.2 hopen hrec
    · cases hstep
  · cases hstep

/-- A step of the system is observed as an event, and is what the event says. -/
theorem step_inv {act : Action} (hstep : s.step act = some (s', e)) : Step s e s' := by
  cases act with
  | begin kind =>
    obtain ⟨rfl, rfl⟩ := Prod.mk.inj (Option.some.inj hstep)
    exact .began kind
  | get h key => exact step_get_inv hstep
  | put h key value | delete h key =>
    simp only [Sys.step] at hstep
    split at hstep
    · next hh =>
      obtain ⟨rfl, rfl⟩ := Prod.mk.inj (Option.some.inj hstep)
      exact .wrote hh
    · cases hstep
  | commit h batch reads => exact step_commit_inv hstep
  | tryCommit h => exact step_tryCommit_inv hstep
  | append h =>
    simp only [Sys.step] at hstep
    split at hstep
    · next hh hlog =>
      obtain ⟨rfl, rfl⟩ := Prod.mk.inj (Option.some.inj hstep)
      exact .appending hh hlog
    · cases hstep
  | appended h failure => exact step_appended_inv hstep
  | commitDone h =>
    simp only [Sys.step] at hstep
    split at hstep
    · next hh =>
      obtain ⟨rfl, rfl⟩ := Prod.mk.inj (Option.some.inj hstep)
      exact .reported hh
    · cases hstep
  | drop h => exact step_drop_inv hstep
  | collectGarbage =>
    obtain ⟨rfl, rfl⟩ := Prod.mk.inj (Option.some.inj hstep)
    exact .swept
  | prune g =>
    simp only [Sys.step] at hstep
    split at hstep
    · next hg =>
      split_ifs at hstep with hlt
      obtain ⟨rfl, rfl⟩ := Prod.mk.inj (Option.some.inj hstep)
      exact .pruned hg hlt
    · cases hstep
  | crash survivors log => exact step_crash_inv hstep

end

/-- A timestamp that is handed out is the next one. -/
theorem Step.commitTs_eq {s s' : Sys} {a : Attempt} {N : ℕ} (hstep : Step s (.allocated a) s')
    (hnext : s.inner.oracle.nextTs = wrap (N + 1)) (hN : N + 1 < 2 ^ 64) : a.commitTs = N + 1 := by
  cases hstep with
  | allocated _ _ _ hc => rw [hc, hnext, wrap_of_lt hN]

/-- The last timestamp handed out goes up by the number of those that the step hands out. -/
theorem Step.issue_eq {s s' : Sys} {e : Event} {N : ℕ} (hstep : Step s e s')
    (hnext : s.inner.oracle.nextTs = wrap (N + 1)) (hlt : N + allocations [e] < 2 ^ 64)
    (hopen : ∀ L, e ≠ .opened L) : e.issue N = N + allocations [e] := by
  cases e with
  | allocated a => exact hstep.commitTs_eq hnext hlt
  | opened L => exact absurd rfl (hopen L)
  | _ => rfl

/-- Taking actions in turn is a run, which leads to the state computed. -/
theorem run_of_exec {α : Type} {s₀ : Sys} {as : List Action} {tr : List Event} {f : Sys → α} {x : α}
    (h : (Trace.exec Sys.step s₀ as).map (Prod.map id f) = some (tr, x)) :
    ∃ s, Run s₀ tr s ∧ f s = x := by
  obtain ⟨⟨tr', s⟩, hexec, heq⟩ := Option.map_eq_some_iff.1 h
  obtain ⟨rfl, rfl⟩ := Prod.mk.inj heq
  exact ⟨s, Trace.run_of_exec hexec, rfl⟩

/-- A relation between traces and states that every step preserves holds of every run. -/
theorem Run.invariant {s₀ s : Sys} {tr : List Event} {motive : List Event → Sys → Prop}
    (h : Run s₀ tr s) (init : motive [] s₀)
    (step : ∀ {tr s e s'}, Run s₀ tr s → motive tr s → Step s e s' → motive (tr ++ [e]) s') :
    motive tr s :=
  Trace.Run.invariant h init fun hrun hinv ⟨_, ha⟩ => step hrun hinv (step_inv ha)

end TxnDb
