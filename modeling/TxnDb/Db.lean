import TxnDb.Durable
import TxnDb.Oracle
import TxnDb.Txn

/-!
# The database

What the handles of a database share (`Inner`): the store, the oracle, and the
commit log of a durable database. A commit is coordinated in four steps
(`Inner.commitWrites`): a timestamp is allocated, the store validates and
applies the writes, the record is appended to the log, and the timestamp is
reported as done, whatever came of the commit.

Opening a database replays its log in order of timestamps (`Inner.openLog`).
-/

namespace TxnDb

/-- What the handles of a database share. -/
structure Inner where
  store : MemoryStore
  oracle : Oracle
  log : Option CommitLog
  deriving DecidableEq

namespace Inner

/-- The database in memory. -/
def new : Inner := ⟨.new, .new, none⟩

/-- The timestamp a transaction beginning now reads at. -/
def readTs (inner : Inner) : ℕ := inner.oracle.readTs

/-- The timestamp of the most recent commit visible to a new transaction. -/
def lastCommitted (inner : Inner) : ℕ := inner.readTs

/-- Registering a reader. -/
def beginReader (inner : Inner) : ℕ × Inner :=
  (inner.oracle.beginReader.1, { inner with oracle := inner.oracle.beginReader.2 })

/-- Dropping a reader registered at `readTs`. -/
def endReader (inner : Inner) (readTs : ℕ) : Inner :=
  { inner with oracle := inner.oracle.endReader readTs }

/-- Allocating a commit timestamp. -/
def allocCommitTs (inner : Inner) : ℕ × Inner :=
  (inner.oracle.allocCommitTs.1, { inner with oracle := inner.oracle.allocCommitTs.2 })

/-- Reporting the timestamp `ts` as done. -/
def commitDone (inner : Inner) (ts : ℕ) : Inner :=
  { inner with oracle := inner.oracle.commitDone ts }

/-- Reclaims the versions no reader alive can observe. -/
def collectGarbage (inner : Inner) : Inner × ℕ :=
  let (store, reclaimed) := inner.store.collectGarbage inner.oracle.lowWatermark
  ({ inner with store }, reclaimed)

/-- A commit, from the timestamp it takes to its result. The append of its record
    to the log, if there is one, fails with `failure`, if given. -/
def commitWrites (inner : Inner) (owner readTs : ℕ) (writes : List WriteEntry) (reads : List Key)
    (failure : Option String) : Except TxnError ℕ × Inner :=
  let (commitTs, inner) := inner.allocCommitTs
  match inner.store.tryCommit readTs commitTs writes reads with
  -- reported like any other, so that the watermark does not stop below it
  | .error e => (.error e, inner.commitDone commitTs)
  | .ok store =>
    let inner := { inner with store }
    match inner.log with
    | none => (.ok commitTs, inner.commitDone commitTs)
    | some log =>
      let entry : Record := ⟨owner, encodeForLog commitTs writes⟩
      match failure with
      -- the versions are applied, and seen from now on
      | some detail =>
        (.error (.durability detail),
          { inner with log := some ((log.append entry).failed entry) }.commitDone commitTs)
      | none =>
        (.ok commitTs,
          { inner with log := some ((log.append entry).synced entry) }.commitDone commitTs)

/-- A transaction of its own for one write, which `write` buffers, begun again as long
    as it is in conflict, for at most `fuel` rounds; `none` if they are all in conflict. -/
def retry (owner : ℕ) (write : Transaction → Transaction) (failure : Option String) :
    (fuel : ℕ) → Inner → Option (Except TxnError ℕ × Inner)
  | 0, _ => none
  | fuel + 1, inner =>
    let (readTs, inner) := inner.beginReader
    let tx := write (.new readTs false)
    let (result, inner) := inner.commitWrites owner readTs tx.writes.entries [] failure
    let inner := inner.endReader readTs
    match result with
    | .ok commitTs => some (.ok commitTs, inner)
    | .error e => if e.isRetryable then retry owner write failure fuel inner
      else some (.error e, inner)

/-- Puts one value, retrying on conflict. -/
def put (inner : Inner) (owner : ℕ) (key : Key) (value : Value) (failure : Option String)
    (fuel : ℕ) : Option (Except TxnError ℕ × Inner) :=
  retry owner (·.put key value) failure fuel inner

/-- Deletes one key, retrying on conflict. -/
def delete (inner : Inner) (owner : ℕ) (key : Key) (failure : Option String)
    (fuel : ℕ) : Option (Except TxnError ℕ × Inner) :=
  retry owner (·.delete key) failure fuel inner

/-- Opening the database on the records of its log: the commits are replayed in
    ascending order of timestamps. -/
def openLog (records : List Record) : Except TxnError Inner := do
  let (log, recovered) ← CommitLog.openLog records
  -- the log is in the order of the appends, which may be another one
  let recovered := recovered.insertionSort (·.commitTs ≤ ·.commitTs)
  let (highest, store) := recovered.foldl
    (fun (highest, store) commit =>
      (max highest commit.commitTs, store.installRecovered commit.commitTs commit.writes))
    (0, MemoryStore.new)
  return ⟨store, .recovered highest, some log⟩

/-- A database that opens has decoded and replayed its log. -/
theorem openLog_inv {records : List Record} {inner : Inner} (h : openLog records = .ok inner) :
    ∃ commits p, (records.mapM fun entry => decodeCommit entry.data) = .ok commits ∧
      p = (commits.insertionSort (·.commitTs ≤ ·.commitTs)).foldl
        (fun (p : ℕ × MemoryStore) commit =>
          (max p.1 commit.commitTs, p.2.installRecovered commit.commitTs commit.writes))
        (0, MemoryStore.new) ∧
      inner = ⟨p.2, .recovered p.1, some ⟨⟨records, []⟩⟩⟩ := by
  simp only [openLog, CommitLog.openLog, bind, Except.bind, pure, Except.pure] at h
  cases hread : records.mapM fun entry => decodeCommit entry.data with
  | error e =>
    rw [hread] at h
    cases h
  | ok commits =>
    rw [hread] at h
    exact ⟨commits, _, rfl, rfl, (Except.ok.inj h).symm⟩

end Inner

end TxnDb
