import Mathlib.Data.Finset.Basic
import TxnDb.Store

/-!
# Transactions

A transaction reads at the timestamp it began at, through its buffer of writes.
A serializable one records the keys it reads from the store, for validation at
commit; those it also wrote are left out, being validated as writes.
-/

namespace TxnDb

/-- A transaction: its read timestamp, its buffered writes, and the keys it read,
    if it tracks them. -/
structure Transaction where
  readTs : ℕ
  writes : AList fun _ : Key => Option Value
  reads : Option (Finset Key)
  deriving DecidableEq

namespace Transaction

/-- A transaction that reads at `readTs`, and tracks its reads if `serializable`. -/
def new (readTs : ℕ) (serializable : Bool) : Transaction where
  readTs := readTs
  writes := ∅
  reads := if serializable then some ∅ else none

/-- The value of `key` as the transaction sees it: its pending write, or the
    value in its snapshot, the key being then recorded as read. -/
def get (tx : Transaction) (store : MemoryStore) (key : Key) : Option Value × Transaction :=
  match tx.writes.lookup key with
  -- its own write, or delete, whatever is in the snapshot
  | some pending => (pending, tx)
  | none => (store.get key tx.readTs, { tx with reads := tx.reads.map (insert key) })

/-- Buffers a write. -/
def put (tx : Transaction) (key : Key) (value : Value) : Transaction :=
  { tx with writes := tx.writes.insert key (some value) }

/-- Buffers a delete. -/
def delete (tx : Transaction) (key : Key) : Transaction :=
  { tx with writes := tx.writes.insert key none }

/-- The keys read, to validate at commit. -/
def commitReads (tx : Transaction) : Finset Key :=
  match tx.reads with
  -- the keys written are validated as writes
  | some set => set.filter fun key => key ∉ tx.writes
  | none => ∅

end Transaction

end TxnDb
