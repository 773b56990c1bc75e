import TxnDb.Garbage
import TxnDb.Lib.TwoPhase.Linearize

/-!
# Commits lock by lock

A commit locks the shards of its keys one after the other, then checks its keys
and pushes its versions one at a time, while others read and prune the shards
that it has not locked (`MemoryStore.interface`). What it amounts to is the same
as if it were done at once when it takes its last lock (`lock_by_lock`): the
program of the commit, executed at once, is `tryCommit` (`CommitCall.run_prog`).
-/

namespace TxnDb

open Search TwoPhase

/-- A call of `tryCommit`. -/
structure CommitCall where
  readTs : ℕ
  commitTs : ℕ
  writes : List WriteEntry
  reads : List Key
  deriving DecidableEq

/-- What is done on one shard, while it is locked. -/
inductive ShardCall
  | get (key : Key) (readTs : ℕ)
  | prune (lowWatermark i : ℕ)
  deriving DecidableEq

inductive ShardAnswer
  | value (value : Option Value)
  | reclaimed (n : ℕ)
  deriving DecidableEq

/-- What a commit does once it has its locks. -/
abbrev CommitProg := Prog ℕ Chains (Except TxnError Unit)

/-! ## Programs -/

namespace CommitProg

/-- Validation of the keys, each with its shard, before `next`. -/
def validate (readTs : ℕ) (toLock : List ℕ) (next : CommitProg) : List (Key × ℕ) → CommitProg
  | [] => next
  | (key, shard) :: rest =>
    match binarySearch toLock shard with
    | .ok pos => .access (toLock.getD pos 0) id fun chains =>
      if newerThan (chains.lookup key) readTs then .done (.error (.conflict key.length))
      else validate readTs toLock next rest
    | .error _ => validate readTs toLock next rest

/-- Application of the writes, each with its shard. -/
def apply (commitTs : ℕ) (toLock : List ℕ) : List (WriteEntry × ℕ) → CommitProg
  | [] => .done (.ok ())
  | (⟨key, value⟩, shard) :: rest =>
    match binarySearch toLock shard with
    | .ok pos => .access (toLock.getD pos 0) (Chains.push key ⟨commitTs, value⟩) fun _ =>
      apply commitTs toLock rest
    | .error _ => apply commitTs toLock rest

end CommitProg

namespace CommitCall

/-- The general path of the commit. -/
def progLocked (s : MemoryStore) (c : CommitCall) : CommitProg :=
  let writeShards := c.writes.map fun e => s.shardOf e.1
  let readShards := c.reads.map s.shardOf
  let toLock := MemoryStore.toLock writeShards readShards
  .validate c.readTs toLock
    (.validate c.readTs toLock (.apply c.commitTs toLock (c.writes.zip writeShards))
      (c.reads.zip readShards))
    ((c.writes.map (·.1)).zip writeShards)

/-- What the commit does on a store that has the shards of `s`, once it has its locks. -/
def prog (s : MemoryStore) (c : CommitCall) : CommitProg :=
  match c.writes, c.reads with
  | [⟨key, value⟩], [] =>
    -- the fast path: the one shard is locked throughout
    .access (s.shardOf key) id fun chains =>
      if newerThan (chains.lookup key) c.readTs then .done (.error (.conflict key.length))
      else .access (s.shardOf key) (Chains.push key ⟨c.commitTs, value⟩) fun _ => .done (.ok ())
  | _, _ => c.progLocked s

end CommitCall

/-- The shard of the call. -/
def ShardCall.shard (s : MemoryStore) : ShardCall → ℕ
  | .get key _ => s.shardOf key
  | .prune _ i => i

/-- What the call does to its shard. -/
def ShardCall.exec : ShardCall → Chains → ShardAnswer × Chains
  | .get key readTs, chains => (.value (visibleValue (chains.lookup key) readTs), chains)
  | .prune w _, chains => (.reclaimed (chains.reclaimed w), chains.collect w)

namespace CommitProg

variable {toLock held : List ℕ} {r c : ℕ} {next : CommitProg}

theorem mem_of_binarySearch {shard pos : ℕ} (h : binarySearch toLock shard = .ok pos) :
    toLock.getD pos 0 ∈ toLock := by
  have hget := getElem?_of_binarySearch h
  rw [List.getD_eq_getElem?_getD, hget]
  exact List.mem_of_getElem? hget

theorem within_validate (hnext : next.Within toLock) (keys : List (Key × ℕ)) :
    (validate r toLock next keys).Within toLock := by
  induction keys with
  | nil => exact hnext
  | cons k keys ih =>
    obtain ⟨key, shard⟩ := k
    rw [validate]
    split
    · next pos hpos =>
      refine ⟨mem_of_binarySearch hpos, fun chains => ?_⟩
      beta_reduce
      split_ifs
      · trivial
      · exact ih
    · exact ih

theorem within_apply (writes : List (WriteEntry × ℕ)) : (apply c toLock writes).Within toLock := by
  induction writes with
  | nil => trivial
  | cons e writes ih =>
    obtain ⟨⟨key, value⟩, shard⟩ := e
    rw [apply]
    split
    · next pos hpos => exact ⟨mem_of_binarySearch hpos, fun _ => ih⟩
    · exact ih

end CommitProg

namespace CommitCall

/-- A commit takes the fast path, or the general one. -/
theorem fast_or_locked (s : MemoryStore) (c : CommitCall) :
    (∃ readTs commitTs key value, c = ⟨readTs, commitTs, [⟨key, value⟩], []⟩) ∨
      (c.prog s = c.progLocked s ∧ s.lockOrder c.writes c.reads =
          MemoryStore.toLock (c.writes.map fun e => s.shardOf e.1) (c.reads.map s.shardOf) ∧
        s.tryCommit c.readTs c.commitTs c.writes c.reads =
          s.tryCommitLocked c.readTs c.commitTs c.writes c.reads) := by
  obtain ⟨readTs, commitTs, writes, reads⟩ := c
  match writes, reads with
  | [⟨key, value⟩], [] => exact .inl ⟨readTs, commitTs, key, value, rfl⟩
  | [], _ | [_], _ :: _ | _ :: _ :: _, _ => exact .inr ⟨rfl, rfl, rfl⟩

/-- A commit accesses the shards it locks only. -/
theorem within_prog (s : MemoryStore) (c : CommitCall) :
    (c.prog s).Within (s.lockOrder c.writes c.reads) := by
  rcases c.fast_or_locked s with ⟨readTs, commitTs, key, value, rfl⟩ | ⟨hprog, hlock, -⟩
  · refine ⟨List.mem_singleton_self _, fun chains => ?_⟩
    beta_reduce
    split_ifs
    · trivial
    · exact ⟨List.mem_singleton_self _, fun _ => trivial⟩
  · rw [hprog, hlock]
    exact CommitProg.within_validate (CommitProg.within_validate (CommitProg.within_apply _) _) _

end CommitCall

/-- Commits, lock by lock, with reads, and with garbage collection shard by shard, on a
    store that has the shards of `s`. -/
def MemoryStore.interface (s : MemoryStore) :
    Interface ℕ Chains (Except TxnError Unit) CommitCall ShardCall ShardAnswer where
  locks c := s.lockOrder c.writes c.reads
  prog := CommitCall.prog s
  within := CommitCall.within_prog s
  cell := ShardCall.shard s
  op := ShardCall.exec

/-- Commits, each at once, with the same. -/
def MemoryStore.atomic (s : MemoryStore) : ℕ × CommitCall ⊕ ShardCall →
    Option (MemoryStore × Atom (Except TxnError Unit) CommitCall ShardCall ShardAnswer)
  | .inl (p, c) =>
    match s.tryCommit c.readTs c.commitTs c.writes c.reads with
    | .ok s' => some (s', .call p c (.ok ()))
    | .error e => some (s, .call p c (.error e))
  | .inr (.get key readTs) => some (s, .single (.get key readTs) (.value (s.get key readTs)))
  | .inr (.prune w i) =>
    some ((s.pruneShard w i).1, .single (.prune w i) (.reclaimed (s.pruneShard w i).2))

/-! ## Programs executed at once -/

variable {store s s' : MemoryStore} {i : ℕ}

theorem MemoryStore.update_chains {f : Chains → Chains} (hi : i < s.shards.length ∨ f ∅ = ∅) :
    Function.update s.chains i (f (s.chains i)) = (s.modifyChains i f).chains := by
  by_cases hlt : i < s.shards.length
  · funext j
    rw [chains_modifyChains hlt, Function.update_apply]
    by_cases hj : i = j
    · rw [if_pos hj.symm, if_pos hj, hj]
    · rw [if_neg (Ne.symm hj), if_neg hj]
  · -- there is no such shard
    have hnil : s.chains i = ∅ := List.getD_eq_default _ _ (not_lt.1 hlt)
    have hsame : (s.modifyChains i f).chains = s.chains := by
      funext j
      change (s.shards.modify i f).getD j ∅ = s.chains j
      rw [List.modify_eq_self (not_lt.1 hlt), chains]
    rw [hsame, hnil, hi.resolve_left hlt, ← hnil, Function.update_eq_self]

namespace CommitProg

variable {toLock : List ℕ} {r c : ℕ} {next : CommitProg}

theorem run_validate (keys : List (Key × ℕ)) :
    (validate r toLock next keys).run s.chains = match s.validate r toLock keys with
      | .ok () => next.run s.chains
      | .error e => (.error e, s.chains) := by
  induction keys with
  | nil => rfl
  | cons k keys ih =>
    obtain ⟨key, shard⟩ := k
    rw [validate, MemoryStore.validate]
    cases binarySearch toLock shard with
    | ok pos =>
      simp only
      rw [Prog.run, id, Function.update_eq_self]
      split_ifs
      · rfl
      · exact ih
    | error pos => exact ih

theorem run_apply (hlock : ∀ i ∈ toLock, i < s.shards.length) (writes : List (WriteEntry × ℕ)) :
    (apply c toLock writes).run s.chains =
      (.ok (), (MemoryStore.apply c toLock writes s).chains) := by
  induction writes generalizing s with
  | nil => rfl
  | cons e writes ih =>
    obtain ⟨⟨key, value⟩, shard⟩ := e
    rw [apply, MemoryStore.apply]
    cases hpos : binarySearch toLock shard with
    | ok pos =>
      simp only
      rw [Prog.run, MemoryStore.update_chains (.inl (hlock _ (mem_of_binarySearch hpos)))]
      refine ih fun i hi => (hlock i hi).trans_eq ?_
      rw [MemoryStore.modifyChains, List.length_modify]
    | error pos => exact ih hlock

end CommitProg

theorem MemoryStore.lt_of_mem_lockOrder {writes : List WriteEntry} {reads : List Key}
    (hi : i ∈ s.lockOrder writes reads) : i < s.shards.length := by
  unfold lockOrder at hi
  split at hi
  · obtain rfl := List.mem_singleton.1 hi
    exact s.shardOf_lt _
  · rcases mem_toLock.1 hi with hi | hi
    · obtain ⟨e, -, rfl⟩ := List.mem_map.1 hi
      exact s.shardOf_lt _
    · obtain ⟨k, -, rfl⟩ := List.mem_map.1 hi
      exact s.shardOf_lt _

namespace CommitCall

/-- Executed at once, the program of a commit is the commit. -/
theorem run_prog (s : MemoryStore) (c : CommitCall) :
    (c.prog s).run s.chains = match s.tryCommit c.readTs c.commitTs c.writes c.reads with
      | .ok s' => (.ok (), s'.chains)
      | .error e => (.error e, s.chains) := by
  rcases c.fast_or_locked s with ⟨readTs, commitTs, key, value, rfl⟩ | ⟨hprog, hlock, hcommit⟩
  · rw [prog, MemoryStore.tryCommit]
    simp only
    rw [Prog.run, id, Function.update_eq_self]
    split_ifs
    · rfl
    · rw [Prog.run, MemoryStore.update_chains (.inl (s.shardOf_lt key))]
      rfl
  · have hlt : ∀ i ∈ MemoryStore.toLock (c.writes.map fun e => s.shardOf e.1)
        (c.reads.map s.shardOf), i < s.shards.length := fun i hi =>
      MemoryStore.lt_of_mem_lockOrder (hlock ▸ hi)
    rw [hprog, hcommit, progLocked, MemoryStore.tryCommitLocked]
    simp only [CommitProg.run_validate, CommitProg.run_apply hlt]
    cases s.validate c.readTs _ ((c.writes.map (·.1)).zip _) with
    | error e => rfl
    | ok _ => cases s.validate c.readTs _ (c.reads.zip _) <;> rfl

/-- What a commit does depends on what the shards are, not on what they hold. -/
theorem prog_congr (h : s'.mask = s.mask) (c : CommitCall) : c.prog s' = c.prog s := by
  have hshard : s'.shardOf = s.shardOf := funext fun k => MemoryStore.shardOf_congr h
  simp only [prog, progLocked, hshard]

end CommitCall

/-! ## Runs -/

/-- The store `s` has the shards of `store`, and the chains `σ`. -/
structure HoldsChains (store : MemoryStore) (σ : ℕ → Chains) (s : MemoryStore) : Prop where
  mask : s.mask = store.mask
  chains : s.chains = σ

/-- What is executed at once is done at once by the store. -/
theorem HoldsChains.step {σ σ' : ℕ → Chains}
    {e : Atom (Except TxnError Unit) CommitCall ShardCall ShardAnswer} (h : HoldsChains store σ s)
    (hstep : Trace.Step store.interface.atomic σ e σ') :
    ∃ s', Trace.Step MemoryStore.atomic s e s' ∧ HoldsChains store σ' s' := by
  obtain ⟨hmask, rfl⟩ := h
  -- a commit, or else an operation on a single shard
  obtain ⟨x | x, hx⟩ := hstep
  · obtain ⟨p, c⟩ := x
    obtain ⟨rfl, rfl⟩ := Prod.mk.inj (Option.some.inj hx)
    have hrun : (store.interface.prog c).run s.chains = _ :=
      CommitCall.prog_congr hmask c ▸ c.run_prog s
    rw [hrun]
    cases hcommit : s.tryCommit c.readTs c.commitTs c.writes c.reads with
    | ok s' =>
      refine ⟨s', ⟨.inl (p, c), by rw [MemoryStore.atomic, hcommit]⟩, ?_, rfl⟩
      rcases s.tryCommit_commits c.readTs c.commitTs c.writes c.reads with
        ⟨k, -, herr⟩ | ⟨s'', -, hok, hmask', -⟩
      · cases hcommit.symm.trans herr
      · obtain rfl := Except.ok.inj (hcommit.symm.trans hok)
        exact hmask'.trans hmask
    | error e => exact ⟨s, ⟨.inl (p, c), by rw [MemoryStore.atomic, hcommit]⟩, hmask, rfl⟩
  · obtain ⟨rfl, rfl⟩ := Prod.mk.inj (Option.some.inj hx)
    cases x with
    | get key r =>
      refine ⟨s, ⟨.inr (.get key r), ?_⟩, hmask, (Function.update_eq_self _ _).symm⟩
      have hshard : s.shardOf key = store.shardOf key := MemoryStore.shardOf_congr hmask
      rw [MemoryStore.atomic, MemoryStore.get, hshard]
      rfl
    | prune w i =>
      exact ⟨_, ⟨.inr (.prune w i), rfl⟩, hmask, (MemoryStore.update_chains (.inr rfl)).symm⟩

/-- However the commits are interleaved, lock by lock, with one another, with reads and
    with garbage collection, there is a run in which each is done at once, in the order of
    their last locks, where all return the same and leave the same chains. -/
theorem lock_by_lock
    {tr : List (Event ℕ (Except TxnError Unit) CommitCall ShardCall ShardAnswer)}
    {s : State ℕ Chains (Except TxnError Unit) CommitCall}
    (hrun : Trace.Run store.interface.step ⟨store.chains, []⟩ tr s) :
    ∃ L store', Trace.Run MemoryStore.atomic store L store' ∧
      L.map Atom.point = tr.filterMap Event.point ∧ (L.filterMap Atom.name).Nodup ∧
      (∀ p c r, .call p c r ∈ L → ∃ last, .started p c last ∈ tr) ∧
      (∀ p r, .returned p r ∈ tr → ∃ c, .call p c r ∈ L) ∧
      (s.Settled → store'.chains = s.cells) := by
  obtain ⟨L, σ, hL, hsettled⟩ := linearizes_of_run hrun
  obtain ⟨store', hrun', -, hchains⟩ :=
    hL.run.simulates (R := HoldsChains store) ⟨rfl, rfl⟩ HoldsChains.step
  exact ⟨L, store', hrun', hL.order, hL.once, hL.started, hL.returned,
    fun hs => hchains.trans (hsettled hs)⟩

/-- Two commits that touch the same two keys, in opposite orders. Between the locks of the
    first, one of the keys is read; between its pushes, a shard is pruned; between its
    releases, the key is read again. The second commit conflicts. -/
def crossedCommits : List (Action ℕ CommitCall ShardCall) :=
  [.start ⟨0, 1, [⟨[120], some [1]⟩, ⟨[121], some [1]⟩], []⟩,
    .start ⟨0, 2, [⟨[121], none⟩], [[120]]⟩,
    .acquire 0, .single (.get [120] 1), .acquire 0, .access 0, .access 0, .access 0,
    .single (.prune 1 0), .access 0, .release 0 7, .single (.get [120] 1), .release 0 4,
    .finish 0, .acquire 1, .acquire 1, .access 1, .release 1 4, .release 1 7, .finish 1]

theorem lock_by_lock_crossed : ∃ tr s L store',
    Trace.Run MemoryStore.new.interface.step ⟨MemoryStore.new.chains, []⟩ tr s ∧
      Trace.Run MemoryStore.atomic .new L store' ∧ L.map Atom.point = tr.filterMap Event.point ∧
      (∃ c, .call 0 c (.ok ()) ∈ L) ∧ (∃ c, .call 1 c (.error (.conflict 1)) ∈ L) ∧
      store'.chains = s.cells := by
  obtain ⟨tr, s, hexec, hok, herr, hprocs⟩ : ∃ tr s,
      Trace.exec MemoryStore.new.interface.step ⟨MemoryStore.new.chains, []⟩ crossedCommits =
        some (tr, s) ∧ .returned 0 (.ok ()) ∈ tr ∧ .returned 1 (.error (.conflict 1)) ∈ tr ∧
        s.procs = [none, none] := by
    refine ⟨_, _, rfl, ?_, ?_, ?_⟩
    · decide
    · decide
    · rfl
  have hrun := Trace.run_of_exec hexec
  obtain ⟨L, store', hrun', horder, -, -, hreturned, hsettled⟩ := lock_by_lock hrun
  refine ⟨tr, s, L, store', hrun, hrun', horder, hreturned 0 _ hok, hreturned 1 _ herr,
    hsettled fun p x hp => ?_⟩
  rw [State.proc, hprocs] at hp
  rcases p with _ | _ | p <;> cases hp

end TxnDb
