import TxnDb.Lib.Assoc
import TxnDb.Lib.Search
import TxnDb.Lib.Chain
import TxnDb.Lib.History
import TxnDb.Lib.Serial
import TxnDb.Lib.ReadOnly
import TxnDb.Lib.LittleEndian
import TxnDb.Lib.Trace
import TxnDb.Lib.LockOrder
import TxnDb.Lib.TwoPhase
import TxnDb.Lib.TwoPhase.Invariant
import TxnDb.Lib.TwoPhase.Linearize
import TxnDb.Lib.Atomic
import TxnDb.Lib.Consistency
import TxnDb.Basic
import TxnDb.Oracle
import TxnDb.Store
import TxnDb.Garbage
import TxnDb.Flat
import TxnDb.Locking
import TxnDb.Contract
import TxnDb.Txn
import TxnDb.Overlay
import TxnDb.Durable
import TxnDb.Format
import TxnDb.Db
import TxnDb.Install
import TxnDb.Deadlock
import TxnDb.System.Basic
import TxnDb.System
import TxnDb.Clients
import TxnDb.Calls
import TxnDb.Invariant
import TxnDb.Timestamps.Desk
import TxnDb.Timestamps
import TxnDb.Sessions.Named
import TxnDb.Sessions
import TxnDb.Recovery
import TxnDb.Replay
import TxnDb.Acknowledged
import TxnDb.Logged
import TxnDb.Reached
import TxnDb.Isolation
import TxnDb.Quiet.Bounded
import TxnDb.Quiet.Alone
import TxnDb.Quiet
import TxnDb.Overflow
import TxnDb.Serializability
import TxnDb.Outcomes
import TxnDb.Visibility
import TxnDb.LastCommitted
import TxnDb.Durability
import TxnDb.Restarts
import TxnDb.Failures
import TxnDb.Backing
import TxnDb.Stores.Chains
import TxnDb.Stores
import TxnDb.Backed.Refused
import TxnDb.Backed.Mirror
import TxnDb.Backed
import TxnDb.Interchange
import TxnDb.Oracle.Steps
import TxnDb.Oracle.Locks
import TxnDb.Oracle.Effects
import TxnDb.Oracle.Linearize
import TxnDb.Oracle.Return
import TxnDb.Oracle.Watermark
import TxnDb.Oracle.Readers
import TxnDb.Reclaim.Housed
import TxnDb.Reclaim
import TxnDb.OneClient.Calls
import TxnDb.OneClient.Describes
import TxnDb.OneClient
import TxnDb.Rest
import TxnDb.Rivals
import TxnDb.Diagnosis.Basic
import TxnDb.Diagnosis
import TxnDb.Errors
import TxnDb.Consistency
import TxnDb.Examples.BankTransfer
import TxnDb.Examples.SerializableDoctors
