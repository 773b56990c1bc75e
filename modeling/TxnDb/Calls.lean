import TxnDb.Clients

/-!
# Calls

What a call of the library does at once is what its steps do, one after the
other, with no step of another client in between:

* `run_commit`: those of a commit make `Inner.commitWrites`;
* `run_collectGarbage`: those of a garbage collection make `Inner.collectGarbage`.
-/

namespace TxnDb

variable {s : Sys} {h r : ℕ} {x y : Handle} {inner inner' : Inner} {tx : Transaction} {a : Attempt}
  {batch : List WriteEntry} {reads : List Key} {result : Except TxnError ℕ}

namespace Sys

theorem set_set : (s.set h x inner).set h y inner' = s.set h y inner' := by
  simp [set]

/-- A commit begins, with something to write. -/
theorem step_commit (hh : s.handle h = .active tx) (hb : batch.Perm tx.writes.entries)
    (hnd : reads.Nodup) (hreads : reads.toFinset = tx.commitReads) (hne : batch ≠ []) :
    s.step (.commit h batch reads) =
      some (s.set h (.committing ⟨h, tx.readTs, s.inner.oracle.nextTs, batch, reads⟩ .allocated)
          s.inner.allocCommitTs.2,
        .allocated ⟨h, tx.readTs, s.inner.oracle.nextTs, batch, reads⟩) := by
  simp only [step, hh]
  rw [if_pos ⟨hb, hnd, hreads⟩, if_neg hne]
  rfl

/-- A commit that has its result reports its timestamp, and returns. -/
theorem run_return (hh : s.handle h = .committing a (.decided result)) :
    Run s [.reported a, .returned h result]
      (s.set h .closed ((s.inner.commitDone a.commitTs).endReader a.readTs)) := by
  have hclosed : s.handle h ≠ .closed := Sys.ne_closed hh rfl
  have hdone : s.step (.commitDone h) = some (s.set h (.finished a.readTs result)
      (s.inner.commitDone a.commitTs), .reported a) := by
    simp only [step, hh]
  refine (Trace.Run.single ⟨_, hdone⟩).snoc ⟨.drop h, ?_⟩
  simp only [step, handle_set_self hclosed, set_set]
  rfl

end Sys

/-- What the steps of a commit are observed as, once it has its timestamp and until
    it has its result. -/
def Inner.commitEvents (inner : Inner) (a : Attempt) (failure : Option String) : List Event :=
  match inner.store.tryCommit a.readTs a.commitTs a.writes a.reads with
  | .error e => [.conflicted a e]
  | .ok _ => if inner.log.isSome then [.committed a, .appending a, .appended a failure]
    else [.committed a]

/-- What is left of a commit that has its timestamp: its result, and the database. -/
def Inner.finish (inner : Inner) (a : Attempt) (failure : Option String) :
    Except TxnError ℕ × Inner :=
  match inner.store.tryCommit a.readTs a.commitTs a.writes a.reads, inner.log with
  | .error e, _ => (.error e, inner)
  | .ok store, none => (.ok a.commitTs, { inner with store })
  | .ok store, some log =>
    match failure with
    | some detail => (.error (.durability detail),
        { inner with store, log := some ((log.append (record a)).failed (record a)) })
    | none => (.ok a.commitTs,
        { inner with store, log := some ((log.append (record a)).synced (record a)) })

theorem commitWrites_eq (inner : Inner) (failure : Option String)
    (ha : a = ⟨h, r, inner.oracle.nextTs, batch, reads⟩) :
    inner.commitWrites h r batch reads failure =
      ((inner.allocCommitTs.2.finish a failure).1,
        (inner.allocCommitTs.2.finish a failure).2.commitDone a.commitTs) := by
  subst ha
  cases hok : inner.store.tryCommit r inner.oracle.nextTs batch reads <;>
    cases hlog : inner.log <;> cases failure <;>
      simp only [Inner.commitWrites, Inner.finish, Inner.allocCommitTs, Oracle.allocCommitTs, hok,
        hlog, record]

/-- The steps of a commit that has its timestamp, until it has its result. -/
theorem run_finish (hh : s.handle h = .committing a .allocated) (failure : Option String) :
    Run s (s.inner.commitEvents a failure)
      (s.set h (.committing a (.decided (s.inner.finish a failure).1))
        (s.inner.finish a failure).2) := by
  have hclosed : s.handle h ≠ .closed := Sys.ne_closed hh rfl
  have hnext : ∀ {stage inner}, (s.set h (.committing a stage) inner).handle h =
      .committing a stage := Sys.handle_set_self hclosed
  rw [Inner.commitEvents, Inner.finish]
  cases hok : s.inner.store.tryCommit a.readTs a.commitTs a.writes a.reads with
  | error e =>
    refine Trace.Run.single ⟨.tryCommit h, ?_⟩
    simp only [Sys.step, hh, hok]
  | ok store =>
    cases hlog : s.inner.log with
    | none =>
      refine Trace.Run.single ⟨.tryCommit h, ?_⟩
      simp only [Sys.step, hh, hok, hlog]
      rfl
    | some log =>
      -- the record is appended in two steps
      have happly : s.step (.tryCommit h) = some (s.set h (.committing a .applied)
          { s.inner with store }, .committed a) := by
        simp only [Sys.step, hh, hok, hlog]
        rfl
      have happend : (s.set h (.committing a .applied) { s.inner with store }).step (.append h) =
          some (s.set h (.committing a .appending)
            { s.inner with store, log := some (log.append (record a)) }, .appending a) := by
        simp only [Sys.step, hnext, Sys.inner_set, hlog, Sys.set_set]
      refine ((Trace.Run.single ⟨_, happly⟩).snoc ⟨_, happend⟩).snoc ⟨.appended h failure, ?_⟩
      cases failure <;> simp only [Sys.step, hnext, Sys.inner_set, Sys.set_set]

/-- The steps of a commit, one after the other. -/
theorem run_commit (hh : s.handle h = .active tx) (hb : batch.Perm tx.writes.entries)
    (hnd : reads.Nodup) (hreads : reads.toFinset = tx.commitReads) (hne : batch ≠ [])
    (failure : Option String) (ha : a = ⟨h, tx.readTs, s.inner.oracle.nextTs, batch, reads⟩) :
    Run s (.allocated a :: s.inner.commitEvents a failure ++ [.reported a,
        .returned h (s.inner.commitWrites h tx.readTs batch reads failure).1])
      (s.set h .closed
        ((s.inner.commitWrites h tx.readTs batch reads failure).2.endReader tx.readTs)) := by
  have hclosed : s.handle h ≠ .closed := Sys.ne_closed hh rfl
  have hcommit := Sys.step_commit hh hb hnd hreads hne
  rw [← ha] at hcommit
  have hstart : Run s [.allocated a] _ := Trace.Run.single ⟨_, hcommit⟩
  have hrun := (hstart.append (run_finish (Sys.handle_set_self hclosed) failure)).append
    (Sys.run_return (Sys.handle_set_self (by rw [Sys.handle_set_self hclosed]; exact nofun)))
  have hevents :
      s.inner.allocCommitTs.2.commitEvents a failure = s.inner.commitEvents a failure := rfl
  rw [commitWrites_eq s.inner failure ha, ← hevents]
  simpa only [Sys.set_set, Sys.inner_set, ha, List.cons_append, List.nil_append, List.append_assoc]
    using hrun

/-- Pruning the first `n` shards, one after the other. -/
def MemoryStore.pruneShards (store : MemoryStore) (w n : ℕ) : MemoryStore × ℕ :=
  (List.range n).foldl (fun (s, reclaimed) i =>
    ((s.pruneShard w i).1, reclaimed + (s.pruneShard w i).2)) (store, 0)

theorem MemoryStore.pruneShards_succ (store : MemoryStore) (w n : ℕ) :
    store.pruneShards w (n + 1) = (((store.pruneShards w n).1.pruneShard w n).1,
      (store.pruneShards w n).2 + ((store.pruneShards w n).1.pruneShard w n).2) := by
  rw [pruneShards, List.range_succ, List.foldl_append]
  rfl

theorem MemoryStore.length_pruneShards (store : MemoryStore) (w n : ℕ) :
    (store.pruneShards w n).1.shards.length = store.shards.length := by
  induction n with
  | zero => rfl
  | succ n ih => rw [pruneShards_succ, ← ih]; exact List.length_modify ..

/-- The steps of a garbage collection, one after the other. -/
theorem run_collectGarbage (s : Sys) :
    Run s (.swept s.inner.oracle.lowWatermark ::
        (List.range s.inner.store.shards.length).map (.pruned s.sweeps.length))
      { s with
        inner := s.inner.collectGarbage.1
        sweeps := s.sweeps ++ [⟨s.inner.oracle.lowWatermark, s.inner.store.shards.length,
          s.inner.collectGarbage.2⟩] } := by
  -- what `n` of the shards being pruned makes of the system
  have hprune : ∀ n ≤ s.inner.store.shards.length,
      Run s (.swept s.inner.oracle.lowWatermark :: (List.range n).map (.pruned s.sweeps.length))
        { s with
          inner := { s.inner with
            store := (s.inner.store.pruneShards s.inner.oracle.lowWatermark n).1 }
          sweeps := s.sweeps ++ [⟨s.inner.oracle.lowWatermark, n,
            (s.inner.store.pruneShards s.inner.oracle.lowWatermark n).2⟩] } := by
    intro n hn
    induction n with
    | zero => exact Trace.Run.single ⟨.collectGarbage, rfl⟩
    | succ n ih =>
      rw [List.range_succ, List.map_append, ← List.cons_append]
      refine (ih (Nat.le_of_succ_le hn)).snoc ⟨.prune s.sweeps.length, ?_⟩
      simp only [Sys.step, List.getElem?_concat_length, MemoryStore.length_pruneShards]
      rw [if_pos (Nat.lt_of_succ_le hn), MemoryStore.pruneShards_succ,
        List.set_append_right _ _ le_rfl, Nat.sub_self]
      rfl
  exact hprune _ le_rfl

end TxnDb
