import TxnDb.Db
import TxnDb.Lib.History
import TxnDb.Lib.Trace

/-!
# The database and its clients

The system of a database and any number of clients, taking steps in any order.
A client holds handles (`Handle`): snapshots, and transactions. What is a step
(`Sys.step`) is what the database does atomically: a handle begins, reads,
writes to its buffer, or is dropped; a commit takes the steps of
`Inner.commitWrites` one by one (`Stage`), the append of its record being two of
them; a garbage collection computes its low watermark, and then prunes the
shards one by one, at any later time; and a durable database may crash, and is
then opened on what is left of its log.

A handle is named by the position at which it began, and a run is observed as
the trace of its events (`Event`).
-/

namespace TxnDb

open Mvcc

/-- The kinds of handles: snapshots, and transactions of either isolation level. -/
inductive Kind
  | snapshot
  | transaction
  | serializable
  deriving DecidableEq

/-- An attempt to commit: its handle, its timestamps, its batch of writes, and
    the keys it read. -/
abbrev Attempt := Mvcc.Txn Key Value ℕ

/-- The point an attempt is at. -/
inductive Stage
  /-- It has its timestamp. -/
  | allocated
  /-- Its writes are in the store, but not in the log. -/
  | applied
  /-- Its record is being appended. -/
  | appending
  /-- Its result is known, and its timestamp not reported as done. -/
  | decided (result : Except TxnError ℕ)
  deriving DecidableEq

/-- A handle. -/
inductive Handle
  /-- A snapshot. -/
  | reading (readTs : ℕ)
  /-- A transaction. -/
  | active (tx : Transaction)
  /-- A transaction in a commit. -/
  | committing (a : Attempt) (stage : Stage)
  /-- A transaction whose commit has come to its result, and is about to return it. -/
  | finished (readTs : ℕ) (result : Except TxnError ℕ)
  /-- A handle that was dropped. -/
  | closed
  deriving DecidableEq

namespace Handle

/-- The timestamp the handle is registered at. -/
def readTs : Handle → Option ℕ
  | .reading readTs => some readTs
  | .active tx => some tx.readTs
  | .committing a _ => some a.readTs
  | .finished readTs _ => some readTs
  | .closed => none

/-- The timestamp the handle holds, not being reported as done. -/
def commitTs : Handle → Option ℕ
  | .committing a _ => some a.commitTs
  | _ => none

/-- A handle that begins at `readTs`. -/
def begin (readTs : ℕ) : Kind → Handle
  | .snapshot => .reading readTs
  | .transaction => .active (.new readTs false)
  | .serializable => .active (.new readTs true)

end Handle

/-- A garbage collection: its low watermark, the next shard, and the number of
    versions reclaimed so far. -/
structure Sweep where
  lowWatermark : ℕ
  next : ℕ
  reclaimed : ℕ
  deriving DecidableEq

/-- The system. -/
structure Sys where
  inner : Inner
  handles : List Handle
  sweeps : List Sweep
  deriving DecidableEq

/-- What a client (or the environment) does. -/
inductive Action
  | begin (kind : Kind)
  | get (h : ℕ) (key : Key)
  | put (h : ℕ) (key : Key) (value : Value)
  | delete (h : ℕ) (key : Key)
  /-- A commit begins, with the buffered writes and the keys read in some order. -/
  | commit (h : ℕ) (batch : List WriteEntry) (reads : List Key)
  | tryCommit (h : ℕ)
  | append (h : ℕ)
  /-- The append of the record returns, maybe with a failure. -/
  | appended (h : ℕ) (failure : Option String)
  | commitDone (h : ℕ)
  /-- The handle is dropped. -/
  | drop (h : ℕ)
  | collectGarbage
  /-- The next shard is pruned. -/
  | prune (g : ℕ)
  /-- The process ends, and the database is opened again on `log`: the records
      whose append returned, and `survivors`, of those in flight, in some order. -/
  | crash (survivors log : List Record)

/-- What is observed of a step. -/
inductive Event
  | began (h : ℕ) (kind : Kind) (readTs : ℕ)
  /-- A read through `h`, that `own` if it found a buffered write. -/
  | got (h readTs : ℕ) (key : Key) (value : Option Value) (own : Bool)
  | wrote (h : ℕ) (key : Key) (value : Option Value)
  /-- A commit with nothing to write. -/
  | readOnly (h readTs : ℕ)
  | allocated (a : Attempt)
  | committed (a : Attempt)
  | conflicted (a : Attempt) (e : TxnError)
  | appending (a : Attempt)
  | appended (a : Attempt) (failure : Option String)
  /-- The timestamp of the attempt is done. -/
  | reported (a : Attempt)
  /-- The commit returned. -/
  | returned (h : ℕ) (result : Except TxnError ℕ)
  /-- The handle was dropped, and its writes with it. -/
  | dropped (h : ℕ)
  | swept (lowWatermark : ℕ)
  | pruned (g shard : ℕ)
  /-- The database was opened, and installed the commits of `recovered` in order. -/
  | opened (recovered : List Attempt)
  deriving DecidableEq

/-- The record of an attempt. -/
def record (a : Attempt) : Record := ⟨a.id, encodeForLog a.commitTs a.writes⟩

/-- The transaction a record is for, as it is installed: unconditionally, as if it
    had read just before. -/
def Record.attempt (entry : Record) : Except TxnError Attempt := do
  let commit ← decodeCommit entry.data
  return ⟨entry.owner, commit.commitTs - 1, commit.commitTs, commit.writes, []⟩

/-- The transactions the database installs when opened on a log, in order. -/
def recoveredAttempts (log : List Record) : Except TxnError (List Attempt) := do
  let attempts ← log.mapM Record.attempt
  return attempts.insertionSort (·.commitTs ≤ ·.commitTs)

namespace Sys

/-- A new database in memory, with no handle. -/
def new : Sys := ⟨.new, [], []⟩

/-- A new durable database, with no handle. -/
def create : Sys := ⟨⟨.new, .recovered 0, some ⟨⟨[], []⟩⟩⟩, [], []⟩

/-- The handle named `h`. -/
def handle (s : Sys) (h : ℕ) : Handle := s.handles.getD h .closed

/-- A handle begins, and the database changes with it. -/
def add (s : Sys) (x : Handle) (inner : Inner) : Sys :=
  { s with handles := s.handles ++ [x], inner }

/-- The handle named `h` changes, and the database with it. -/
def set (s : Sys) (h : ℕ) (x : Handle) (inner : Inner) : Sys :=
  { s with handles := s.handles.set h x, inner }

/-- A step of the system: what the action does, if it is possible. -/
def step (s : Sys) : Action → Option (Sys × Event)
  | .begin kind =>
    let (readTs, inner) := s.inner.beginReader
    some (s.add (.begin readTs kind) inner, .began s.handles.length kind readTs)
  | .get h key =>
    match s.handle h with
    | .reading readTs => some (s, .got h readTs key (s.inner.store.get key readTs) false)
    | .active tx =>
      let (value, tx') := tx.get s.inner.store key
      some (s.set h (.active tx') s.inner, .got h tx.readTs key value (tx.writes.lookup key).isSome)
    | _ => none
  | .put h key value =>
    match s.handle h with
    | .active tx => some (s.set h (.active (tx.put key value)) s.inner, .wrote h key (some value))
    | _ => none
  | .delete h key =>
    match s.handle h with
    | .active tx => some (s.set h (.active (tx.delete key)) s.inner, .wrote h key none)
    | _ => none
  | .commit h batch reads =>
    match s.handle h with
    | .active tx =>
      -- the maps of the transaction are drained in any order
      if batch.Perm tx.writes.entries ∧ reads.Nodup ∧ reads.toFinset = tx.commitReads then
        -- a commit with nothing to write takes no timestamp
        if batch = [] then
          some (s.set h (.finished tx.readTs (.ok tx.readTs)) s.inner, .readOnly h tx.readTs)
        else
          let (commitTs, inner) := s.inner.allocCommitTs
          let a : Attempt := ⟨h, tx.readTs, commitTs, batch, reads⟩
          some (s.set h (.committing a .allocated) inner, .allocated a)
      else none
    | _ => none
  | .tryCommit h =>
    match s.handle h with
    | .committing a .allocated =>
      match s.inner.store.tryCommit a.readTs a.commitTs a.writes a.reads with
      | .error e => some (s.set h (.committing a (.decided (.error e))) s.inner, .conflicted a e)
      | .ok store =>
        let stage := if s.inner.log.isSome then .applied else .decided (.ok a.commitTs)
        some (s.set h (.committing a stage) { s.inner with store }, .committed a)
    | _ => none
  | .append h =>
    match s.handle h, s.inner.log with
    | .committing a .applied, some log =>
      some (s.set h (.committing a .appending) { s.inner with log := some (log.append (record a)) },
        .appending a)
    | _, _ => none
  | .appended h failure =>
    match s.handle h, s.inner.log with
    | .committing a .appending, some log =>
      match failure with
      | none =>
        some (s.set h (.committing a (.decided (.ok a.commitTs)))
          { s.inner with log := some (log.synced (record a)) }, .appended a none)
      | some detail =>
        some (s.set h (.committing a (.decided (.error (.durability detail))))
          { s.inner with log := some (log.failed (record a)) }, .appended a (some detail))
    | _, _ => none
  | .commitDone h =>
    match s.handle h with
    -- whatever the result is
    | .committing a (.decided result) =>
      some (s.set h (.finished a.readTs result) (s.inner.commitDone a.commitTs), .reported a)
    | _ => none
  | .drop h =>
    match s.handle h with
    | .reading readTs => some (s.set h .closed (s.inner.endReader readTs), .dropped h)
    | .active tx => some (s.set h .closed (s.inner.endReader tx.readTs), .dropped h)
    | .finished readTs result =>
      some (s.set h .closed (s.inner.endReader readTs), .returned h result)
    | _ => none
  | .collectGarbage =>
    let low := s.inner.oracle.lowWatermark
    some ({ s with sweeps := s.sweeps ++ [⟨low, 0, 0⟩] }, .swept low)
  | .prune g =>
    match s.sweeps[g]? with
    | some sweep =>
      if sweep.next < s.inner.store.shards.length then
        let (store, reclaimed) := s.inner.store.pruneShard sweep.lowWatermark sweep.next
        let sweep' : Sweep := ⟨sweep.lowWatermark, sweep.next + 1, sweep.reclaimed + reclaimed⟩
        some ({ s with inner := { s.inner with store }, sweeps := s.sweeps.set g sweep' },
          .pruned g sweep.next)
      else none
    | none => none
  | .crash survivors log =>
    match s.inner.log with
    | some old =>
      -- any part of what is in flight may have reached the disk
      if survivors.Sublist old.wal.inFlight ∧ log.Perm (old.wal.records ++ survivors) then
        match Inner.openLog log, recoveredAttempts log with
        -- the handles are those of a process that is gone
        | .ok inner, .ok recovered =>
          some (⟨inner, s.handles.map fun _ => .closed, []⟩, .opened recovered)
        | _, _ => none
      else none
    | none => none

end Sys

/-- The runs from `s₀`. -/
abbrev Run (s₀ : Sys) (tr : List Event) (s : Sys) : Prop := Trace.Run Sys.step s₀ tr s

end TxnDb
