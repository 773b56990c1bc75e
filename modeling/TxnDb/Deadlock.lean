import TxnDb.Db
import TxnDb.Lib.LockOrder

/-!
# No deadlock

The operations of a database, by the locks they take (`Operation.locks`): a
commit those of the shards it touches, in ascending order, before it releases
any; the others one at a time. No lock is waited for while one at or above it in
this order is held, so that as long as an operation is not done, one can go on
(`no_deadlock`).
-/

namespace TxnDb

open LockOrder

/-- The locks of a database: those of the oracle, and one for each shard. -/
inductive Lock
  | readers
  | pending
  | shard (i : ℕ)
  deriving DecidableEq

/-- Where the lock is in the order. The locks of the oracle are taken alone. -/
def Lock.rank : Lock → ℕ
  | .readers | .pending => 0
  | .shard i => i

/-- What runs concurrently on a database. -/
inductive Operation
  | tryCommit (writes : List WriteEntry) (reads : List Key)
  | get (key : Key)
  | collectGarbage
  | beginReader
  | endReader
  | commitDone
  | keyCount

/-- Taking a lock, and releasing it. -/
def hold (l : Lock) (m : Mode) : List (Instr Lock) := [.acquire l m, .release l]

/-- The locks an operation takes on a database with the store `s`, and releases. -/
def Operation.locks (s : MemoryStore) : Operation → List (Instr Lock)
  | .tryCommit writes reads =>
    let shards := (s.lockOrder writes reads).map Lock.shard
    shards.map (.acquire · .write) ++ shards.map .release
  | .get key => hold (.shard (s.shardOf key)) .read
  | .collectGarbage =>
    hold .readers .write ++ (List.range s.shards.length).flatMap fun i => hold (.shard i) .write
  | .beginReader | .endReader => hold .readers .write
  | .commitDone => hold .pending .write
  | .keyCount => (List.range s.shards.length).flatMap fun i => hold (.shard i) .read

/-- A client that runs some operations, one after the other. -/
def client (s : MemoryStore) (operations : List Operation) : Proc Lock :=
  ⟨[], operations.flatMap (Operation.locks s)⟩

/-- Every operation takes its locks in ascending order, and releases them. -/
theorem disciplined_locks (s : MemoryStore) (o : Operation) :
    Disciplined Lock.rank [] (o.locks s) := by
  cases o with
  | tryCommit writes reads =>
    exact disciplined_all (List.pairwise_map.2 (s.lockOrder_sortedLT writes reads)) .write
  | get | beginReader | endReader | commitDone => exact disciplined_single _ _
  | collectGarbage =>
    exact (disciplined_single _ _).append (.flatMap fun _ _ => disciplined_single _ _)
  | keyCount => exact .flatMap fun _ _ => disciplined_single _ _

/-- In every state that any clients reach: as long as one is not done, one can go on, even
    if readers let the writers that wait go first; nobody waits for a lock it holds; and
    all can be done. -/
theorem no_deadlock {store : MemoryStore} {clients : List (List Operation)}
    {tr : List (Instr Lock)} {s : List (Proc Lock)}
    (hrun : Trace.Run step (clients.map (client store)) tr s) :
    ((∃ p ∈ s, p.rest ≠ []) → ∃ i p s' instr, s[i]? = some p ∧ p.CanStep s ∧
      step s i = some (s', instr)) ∧
    (∀ p ∈ s, ∀ l m, p.rest.head? = some (.acquire l m) → ¬p.Holds l) ∧
    ∃ tr' t, Trace.Run step s tr' t ∧ ∀ p ∈ t, p.rest = [] := by
  have hordered : ∀ p ∈ s, p.Ordered Lock.rank := by
    refine hrun.invariant (motive := fun _ s => ∀ p ∈ s, p.Ordered Lock.rank) ?_
      fun _ h ⟨_, hstep⟩ => ordered_step h hstep
    intro p hp
    obtain ⟨operations, -, rfl⟩ := List.mem_map.1 hp
    exact .flatMap fun o _ => disciplined_locks store o
  refine ⟨fun hrest => ?_, fun p hp l m hnext => (hordered p hp).not_holds hnext,
    exists_run hordered⟩
  obtain ⟨p, hp, hc⟩ := exists_canStep hordered hrest
  obtain ⟨i, hi⟩ := List.mem_iff_getElem?.1 hp
  obtain ⟨s', instr, hstep⟩ := hc.step hi
  exact ⟨i, p, s', instr, hi, hc, hstep⟩

/-- Two commits that touch the same two keys in opposite orders, and a reader. -/
def crossedClients : List (List Operation) :=
  [[.beginReader, .tryCommit [⟨[120], none⟩, ⟨[121], none⟩] [], .commitDone],
    [.tryCommit [⟨[121], none⟩] [[120]]], [.get [120], .collectGarbage]]

/-- The first commit has taken one of its locks. -/
theorem no_deadlock_crossed : ∃ tr s, Trace.Run step (crossedClients.map (client .new)) tr s ∧
    (∃ p ∈ s, p.rest ≠ [] ∧ p.Holds (.shard 4)) ∧ ∃ i p s' instr, s[i]? = some p ∧ p.CanStep s ∧
      step s i = some (s', instr) := by
  obtain ⟨tr, s, hexec, hp⟩ : ∃ tr s, Trace.exec step (crossedClients.map (client .new))
      [0, 0, 0] = some (tr, s) ∧ ∃ p ∈ s, p.rest ≠ [] ∧ ((.shard 4, .write) ∈ p.held) :=
    ⟨_, _, rfl, by decide⟩
  obtain ⟨p, hp, hrest, hheld⟩ := hp
  have hrun := Trace.run_of_exec hexec
  exact ⟨tr, s, hrun, ⟨p, hp, hrest, _, hheld⟩, (no_deadlock hrun).1 ⟨p, hp, hrest⟩⟩

end TxnDb
