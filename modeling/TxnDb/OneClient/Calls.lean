import TxnDb.Overlay
import TxnDb.Quiet

/-!
# The calls of a client

What a client that makes one call after the other can call (`ClientCall`), what the database
makes of a call (`Inner.call`), and what the map does (`Book.call`).
-/

namespace TxnDb

open Mvcc

deriving instance DecidableEq for TxCall

/-- A call of a client. The append of a record of the log fails with `failure`, if given. -/
inductive ClientCall
  | get (key : Key)
  /-- In at most `fuel + 1` rounds. -/
  | put (key : Key) (value : Value) (failure : Option String) (fuel : ℕ)
  | delete (key : Key) (failure : Option String) (fuel : ℕ)
  /-- A transaction that commits: the calls on it, and its writes and the keys it read, in the
      order in which they are drained. -/
  | transact (serializable : Bool) (calls : List TxCall) (batch : List WriteEntry)
      (reads : List Key) (failure : Option String)
  /-- A transaction that is dropped. -/
  | rollback (serializable : Bool) (calls : List TxCall)
  | lastCommitted
  | collectGarbage
  /-- The database is opened again, on the records of its log, in some order. -/
  | reopen (log : List Record)
  /-- The process ends while a transaction is appended to the log, and the database is opened
      again, on a log which has the record of the transaction if it `survives`. -/
  | crash (serializable : Bool) (calls : List TxCall) (batch : List WriteEntry)
      (reads : List Key) (survives : Bool) (log : List Record)
  deriving DecidableEq

/-- What a call returns. -/
inductive Reply
  | value (value : Option Value)
  | result (result : Except TxnError ℕ)
  /-- None of the rounds has succeeded. -/
  | exhausted
  /-- What was done on a transaction, and what its commit returned. -/
  | committed (ops : List (Op Key Value)) (result : Except TxnError ℕ)
  | dropped (ops : List (Op Key Value))
  | timestamp (ts : ℕ)
  | collected
  | opened (result : Except TxnError Unit)
  /-- What was done on a transaction lost in a crash. -/
  | lost (ops : List (Op Key Value)) (result : Except TxnError Unit)
  deriving DecidableEq

/-- The lengths of what is written fit in a record of the log. -/
def ClientCall.Fits : ClientCall → Prop
  | .put key value _ _ => TxnDb.Fits [⟨key, some value⟩]
  | .delete key _ _ => TxnDb.Fits [⟨key, none⟩]
  | .transact _ _ batch _ _ | .crash _ _ batch _ _ _ => TxnDb.Fits batch
  | _ => True

instance : (c : ClientCall) → Decidable c.Fits
  | .put .. | .delete .. | .transact .. | .crash .. => inferInstanceAs (Decidable (TxnDb.Fits _))
  | .get _ | .rollback .. | .lastCommitted | .collectGarbage | .reopen _ =>
    inferInstanceAs (Decidable True)

/-! ## The database -/

instance {tx : Transaction} {batch : List WriteEntry} {reads : List Key} :
    Decidable (tx.Passes batch reads) :=
  inferInstanceAs (Decidable (_ ∧ _ ∧ _))

namespace Inner

/-- A transaction begins, and is called. -/
def transaction (inner : Inner) (serializable : Bool) (calls : List TxCall) :
    (List (Op Key Value) × Transaction) × Inner :=
  let (readTs, inner) := inner.beginReader
  ((Transaction.new readTs serializable).run (calls.map (inner.store, ·)), inner)

/-- A transaction commits what it passes to the store, and ends. -/
def commit (inner : Inner) (owner : ℕ) (tx : Transaction) (batch : List WriteEntry)
    (reads : List Key) (failure : Option String) : Except TxnError ℕ × Inner :=
  -- with nothing to write, it takes no timestamp
  if batch = [] then (.ok tx.readTs, inner.endReader tx.readTs)
  else
    let (result, inner) := inner.commitWrites owner tx.readTs batch reads failure
    (result, inner.endReader tx.readTs)

/-- The process ends, and the database is opened again on `records`. If the log does not open,
    the client is left with the database it had. -/
def reopen (inner : Inner) (records : List Record) : Except TxnError Unit × Inner :=
  match Inner.openLog records with
  | .ok inner' => (.ok (), inner')
  | .error e => (.error e, inner)

/-- A call of a client, if it is possible. -/
def call (inner : Inner) (c : ClientCall) : Option (Inner × ClientCall × Reply) :=
  match c with
  | .get key =>
    let (readTs, inner) := inner.beginReader
    some (inner.endReader readTs, c, .value (inner.store.get key readTs))
  | .put key value failure fuel =>
    match inner.put 0 key value failure (fuel + 1) with
    | some (result, inner) => some (inner, c, .result result)
    | none => some (inner, c, .exhausted)
  | .delete key failure fuel =>
    match inner.delete 0 key failure (fuel + 1) with
    | some (result, inner) => some (inner, c, .result result)
    | none => some (inner, c, .exhausted)
  | .transact serializable calls batch reads failure =>
    let ((ops, tx), inner) := inner.transaction serializable calls
    if tx.Passes batch reads then
      let (result, inner) := inner.commit 0 tx batch reads failure
      some (inner, c, .committed ops result)
    else none
  | .rollback serializable calls =>
    let ((ops, tx), inner) := inner.transaction serializable calls
    some (inner.endReader tx.readTs, c, .dropped ops)
  | .lastCommitted => some (inner, c, .timestamp inner.lastCommitted)
  | .collectGarbage => some (inner.collectGarbage.1, c, .collected)
  | .reopen records =>
    match inner.log with
    | some log =>
      if records.Perm log.wal.records then
        let (result, inner) := inner.reopen records
        some (inner, c, .opened result)
      else none
    | none => none
  | .crash serializable calls batch reads survives records =>
    let ((ops, tx), inner) := inner.transaction serializable calls
    let (commitTs, inner) := inner.allocCommitTs
    let entry : Record := ⟨0, encodeForLog commitTs batch⟩
    match inner.log, inner.store.tryCommit tx.readTs commitTs batch reads with
    | some log, .ok store =>
      let log := log.append entry
      if tx.Passes batch reads ∧ batch ≠ [] ∧
          records.Perm (log.wal.records ++ if survives then log.wal.inFlight else []) then
        let (result, inner) := { inner with store, log := some log }.reopen records
        some (inner, c, .lost ops result)
      else none
    | _, .error e => some (inner.commitDone commitTs, c, .committed ops (.error e))
    | none, .ok _ => none

end Inner

/-! ## The map -/

/-- What a call on a transaction does, over the map that it sees. -/
def TxCall.op (m : Key → Option Value) : TxCall → Op Key Value
  | .get key => .get key (m key)
  | .put key value => .write key (some value)
  | .delete key => .write key none

/-- What calls on a transaction do. -/
def TxCall.ops (m : Key → Option Value) : List TxCall → List (Op Key Value)
  | [] => []
  | c :: calls => c.op m :: ops ((c.op m).exec m) calls

/-- The operation is a write. -/
def isWrite : Op Key Value → Bool
  | .get _ _ => false
  | .write _ _ => true

/-- What there is to know of the database for a client that is alone. -/
structure Book where
  /-- What is read. -/
  now : Key → Option Value
  clock : ℕ
  /-- The map and the clock that are found on opening the database again, if it is durable. -/
  disk : Option ((Key → Option Value) × ℕ)

namespace Book

/-- A commit of some writes. -/
def commit (b : Book) (ops : List (Op Key Value)) (failure : Option String) :
    Except TxnError ℕ × Book :=
  match b.disk, failure with
  | none, _ => (.ok (b.clock + 1), ⟨execOps b.now ops, b.clock + 1, none⟩)
  | some (m, _), none =>
    (.ok (b.clock + 1), ⟨execOps b.now ops, b.clock + 1, some (execOps m ops, b.clock + 1)⟩)
  -- the writes are seen all the same, until the database is opened again
  | some disk, some detail =>
    (.error (.durability detail), ⟨execOps b.now ops, b.clock + 1, some disk⟩)

/-- A commit takes the next timestamp, or fails to be logged. -/
theorem commit_cases (b : Book) (ops : List (Op Key Value)) (failure : Option String) :
    (b.commit ops failure).1 = .ok (b.clock + 1) ∨
      ∃ detail, (b.commit ops failure).1 = .error (.durability detail) := by
  obtain ⟨now, clock, _ | disk⟩ := b
  · exact .inl rfl
  · cases failure with
    | none => exact .inl rfl
    | some detail => exact .inr ⟨detail, rfl⟩

theorem clock_commit_le (b : Book) (ops : List (Op Key Value)) (failure : Option String) :
    (b.commit ops failure).2.clock ≤ b.clock + 1 := by
  obtain ⟨now, clock, _ | disk⟩ := b
  · exact le_rfl
  · cases failure <;> exact le_rfl

/-- The database is opened again. -/
def reopen (disk : (Key → Option Value) × ℕ) : Book := ⟨disk.1, disk.2, some disk⟩

/-- A call of a client. -/
def call (b : Book) (c : ClientCall) : Option (Book × ClientCall × Reply) :=
  match c with
  | .get key => some (b, c, .value (b.now key))
  | .put key value failure _ =>
    let (result, b) := b.commit [.write key (some value)] failure
    some (b, c, .result result)
  | .delete key failure _ =>
    let (result, b) := b.commit [.write key none] failure
    some (b, c, .result result)
  | .transact _ calls _ _ failure =>
    let ops := TxCall.ops b.now calls
    if ops.any isWrite then
      let (result, b) := b.commit ops failure
      some (b, c, .committed ops result)
    else some (b, c, .committed ops (.ok b.clock))
  | .rollback _ calls => some (b, c, .dropped (TxCall.ops b.now calls))
  | .lastCommitted => some (b, c, .timestamp b.clock)
  | .collectGarbage => some (b, c, .collected)
  | .reopen _ => b.disk.map fun disk => (reopen disk, c, .opened (.ok ()))
  | .crash _ calls _ _ survives _ =>
    let ops := TxCall.ops b.now calls
    b.disk.map fun disk =>
      (reopen (if survives then (execOps disk.1 ops, b.clock + 1) else disk), c, .lost ops (.ok ()))

end Book

end TxnDb
