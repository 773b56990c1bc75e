import TxnDb.Basic
import TxnDb.Lib.Assoc
import TxnDb.Lib.Chain
import TxnDb.Lib.Search

/-!
# The in-memory version store

`MemoryStore` keeps the version chains of the keys in shards, picked by a hash
of the key. A shard is behind a lock: reads lock the shard of their key, commits
those of all the keys they touch, and garbage collection one after the other.

A commit validates, then applies, through the guards of the shards it locked,
sorted without duplicates; a guard is a borrow of its shard, so that the guard
at position `pos` reads and writes the shard `toLock[pos]`. With a single write
and no reads to validate, it takes a fast path.

The sharding is invisible: with `MemoryStore.chain s k` for the chain of the key
`k`, wherever it is,

* `tryCommit_commits`: a commit fails on the first key whose chain is newer than its
  snapshot, if there is one, and otherwise appends its writes to the chains;
* `chain_pruneShard`: pruning a shard prunes the chains of its keys.
-/

namespace TxnDb

open Mvcc Search

/-- A version of a key. -/
abbrev Version := Mvcc.Version ℕ Value

/-- The chains of a shard. -/
abbrev Chains := AList fun _ : Key => List Version

/-- Appending a version to the chain of `key`. -/
def Chains.push (key : Key) (v : Version) (chains : Chains) : Chains :=
  chains.insert key ((chains.lookup key).getD [] ++ [v])

/-- The store: its shards, and the mask picking one of them from a hash. -/
structure MemoryStore where
  shards : List Chains
  mask : ℕ
  length_eq : shards.length = mask + 1
  deriving DecidableEq

/-- The FNV-1a hash of a key. -/
def hashKey (key : Key) : UInt64 :=
  key.foldl (fun hash byte => (hash ^^^ byte.toUInt64) * 0x100000001b3) 0xcbf29ce484222325

/-- The least power of two at or above `n`, from the power `p` on. -/
def nextPowerOfTwo (n : ℕ) : (fuel p : ℕ) → ℕ
  | 0, p => p
  | fuel + 1, p => if p < n then nextPowerOfTwo n fuel (2 * p) else p

/-- The newest version is above `readTs`. -/
def newerThan (versions : Option (List Version)) (readTs : ℕ) : Bool :=
  match versions.bind (·.getLast?) with
  | some v => readTs < v.commitTs
  | none => false

/-- The value of the newest version at or below `readTs`. -/
def visibleValue (versions : Option (List Version)) (readTs : ℕ) : Option Value := do
  let versions ← versions
  let visible := partitionPoint versions fun v => v.commitTs ≤ readTs
  -- a subtraction that is checked
  let idx ← if visible < 1 then none else some (visible - 1)
  let v ← versions[idx]?
  v.value

/-- What garbage collection below `lowWatermark` makes of a chain (`none` if it
    drops the key), with the number of versions reclaimed. -/
def retainChain (lowWatermark : ℕ) (chain : List Version) : Option (List Version) × ℕ :=
  let visible := partitionPoint chain fun v => v.commitTs ≤ lowWatermark
  let reclaimed := if 1 < visible then visible - 1 else 0
  let chain := if 1 < visible then chain.drop (visible - 1) else chain
  -- a single version left that is a tombstone reads as no version
  match chain with
  | [v] => if v.commitTs ≤ lowWatermark ∧ v.value = none then (none, reclaimed + 1)
    else (some [v], reclaimed)
  | chain => (some chain, reclaimed)

theorem nextPowerOfTwo_pos {n fuel p : ℕ} (hp : 0 < p) : 0 < nextPowerOfTwo n fuel p := by
  induction fuel generalizing p with
  | zero => exact hp
  | succ fuel ih =>
    rw [nextPowerOfTwo]
    split_ifs
    · exact ih (Nat.mul_pos Nat.two_pos hp)
    · exact hp

namespace MemoryStore

/-- The store with `shards` shards, rounded up to a power of two. -/
def withShards (shards : ℕ) : MemoryStore where
  shards := List.replicate (nextPowerOfTwo (max shards 1) (max shards 1) 1) ∅
  mask := nextPowerOfTwo (max shards 1) (max shards 1) 1 - 1
  length_eq := by
    rw [List.length_replicate, Nat.sub_add_cancel (nextPowerOfTwo_pos Nat.one_pos)]

/-- The store of an empty database. -/
def new : MemoryStore := withShards 16

/-- The shard a key belongs to. -/
def shardOf (s : MemoryStore) (key : Key) : ℕ := (hashKey key).toNat &&& s.mask

/-- The chains of the shard `i`. -/
def chains (s : MemoryStore) (i : ℕ) : Chains := s.shards.getD i ∅

/-- Updating the chains of the shard `i`. -/
def modifyChains (s : MemoryStore) (i : ℕ) (f : Chains → Chains) : MemoryStore where
  shards := s.shards.modify i f
  mask := s.mask
  length_eq := by rw [List.length_modify, s.length_eq]

/-- The value of `key` visible at `readTs`. -/
def get (s : MemoryStore) (key : Key) (readTs : ℕ) : Option Value :=
  visibleValue ((s.chains (s.shardOf key)).lookup key) readTs

/-- Validation of the keys, each with its shard, under the locks of the shards
    `toLock`: a conflict on the first key changed since `readTs`. -/
def validate (s : MemoryStore) (readTs : ℕ) (toLock : List ℕ) :
    List (Key × ℕ) → Except TxnError Unit
  | [] => .ok ()
  | (key, shard) :: rest =>
    match binarySearch toLock shard with
    | .ok pos =>
      if newerThan ((s.chains (toLock.getD pos 0)).lookup key) readTs then
        .error (.conflict key.length)
      else s.validate readTs toLock rest
    -- not reached: the shards of all keys are locked
    | .error _ => s.validate readTs toLock rest

/-- Application of the writes, each with its shard, under the locks of the
    shards `toLock`. -/
def apply (commitTs : ℕ) (toLock : List ℕ) : List (WriteEntry × ℕ) → MemoryStore → MemoryStore
  | [], s => s
  | (⟨key, value⟩, shard) :: rest, s =>
    match binarySearch toLock shard with
    | .ok pos =>
      apply commitTs toLock rest
        (s.modifyChains (toLock.getD pos 0) (Chains.push key ⟨commitTs, value⟩))
    | .error _ => apply commitTs toLock rest s

/-- The distinct shards of the keys, in the order in which they are locked. -/
def toLock (writeShards readShards : List ℕ) : List ℕ :=
  dedupRuns ((writeShards ++ readShards).insertionSort (· ≤ ·))

/-- The general path of a commit: it locks the shards of the keys, validates the
    writes, then the reads, and applies the writes. -/
def tryCommitLocked (s : MemoryStore) (readTs commitTs : ℕ) (writes : List WriteEntry)
    (reads : List Key) : Except TxnError MemoryStore := do
  let writeShards := writes.map fun e => s.shardOf e.1
  let readShards := reads.map s.shardOf
  let toLock := toLock writeShards readShards
  -- nothing is applied before all keys are validated
  s.validate readTs toLock ((writes.map (·.1)).zip writeShards)
  s.validate readTs toLock (reads.zip readShards)
  pure (apply commitTs toLock (writes.zip writeShards) s)

/-- Validates a transaction and, if it does not conflict, applies its writes. -/
def tryCommit (s : MemoryStore) (readTs commitTs : ℕ) (writes : List WriteEntry)
    (reads : List Key) : Except TxnError MemoryStore :=
  match writes, reads with
  | [⟨key, value⟩], [] =>
    -- the fast path: one shard, and no bookkeeping
    if newerThan ((s.chains (s.shardOf key)).lookup key) readTs then
      .error (.conflict key.length)
    else .ok (s.modifyChains (s.shardOf key) (Chains.push key ⟨commitTs, value⟩))
  | writes, reads => s.tryCommitLocked readTs commitTs writes reads

/-- The shards a commit locks, in the order in which it does. -/
def lockOrder (s : MemoryStore) (writes : List WriteEntry) (reads : List Key) : List ℕ :=
  match writes, reads with
  | [⟨key, _⟩], [] => [s.shardOf key]
  | writes, reads => toLock (writes.map fun e => s.shardOf e.1) (reads.map s.shardOf)

/-- Garbage collection of the shard `i`: the step between locking and unlocking it. -/
def pruneShard (s : MemoryStore) (lowWatermark i : ℕ) : MemoryStore × ℕ :=
  (s.modifyChains i (AList.retain fun _ chain => (retainChain lowWatermark chain).1),
    ((s.chains i).entries.map fun e => (retainChain lowWatermark e.2).2).sum)

/-- Garbage collection of all shards, one after the other. -/
def collectGarbage (s : MemoryStore) (lowWatermark : ℕ) : MemoryStore × ℕ :=
  (List.range s.shards.length).foldl (fun (s, reclaimed) i =>
    ((s.pruneShard lowWatermark i).1, reclaimed + (s.pruneShard lowWatermark i).2)) (s, 0)

/-- The number of keys that have a chain. -/
def keyCount (s : MemoryStore) : ℕ := (s.shards.map fun chains => chains.entries.length).sum

/-- Installs the writes of a recovered transaction, without validation. -/
def installRecovered (s : MemoryStore) (commitTs : ℕ) (writes : List WriteEntry) : MemoryStore :=
  writes.foldl (fun s e => s.modifyChains (s.shardOf e.1) (Chains.push e.1 ⟨commitTs, e.2⟩)) s

/-! ## Chains -/

variable {s s' : MemoryStore} {k key : Key} {i r c : ℕ}

/-- The chain of a key, empty if it has none. -/
def chain (s : MemoryStore) (k : Key) : List Version :=
  ((s.chains (s.shardOf k)).lookup k).getD []

@[simp] theorem mask_modifyChains {f : Chains → Chains} : (s.modifyChains i f).mask = s.mask := rfl

theorem shardOf_congr (h : s'.mask = s.mask) : s'.shardOf k = s.shardOf k := by
  rw [shardOf, shardOf, h]

/-- A key belongs to one of the shards. -/
theorem shardOf_lt (s : MemoryStore) (k : Key) : s.shardOf k < s.shards.length := by
  rw [s.length_eq, shardOf]
  exact Nat.lt_succ_of_le Nat.and_le_right

theorem chains_modifyChains {f : Chains → Chains} (hi : i < s.shards.length) (j : ℕ) :
    (s.modifyChains i f).chains j = if i = j then f (s.chains j) else s.chains j := by
  simp only [chains, modifyChains, List.getD_eq_getElem?_getD, List.getElem?_modify]
  split_ifs with h
  · subst h
    rw [List.getElem?_eq_getElem hi]
    rfl
  · rw [id_map']

theorem chain_modifyChains {f : Chains → Chains} (hi : i < s.shards.length) :
    (s.modifyChains i f).chain k =
      if i = s.shardOf k then ((f (s.chains i)).lookup k).getD [] else s.chain k := by
  rw [chain, shardOf_congr mask_modifyChains, chains_modifyChains hi]
  split_ifs with h
  · rw [h]
  · rfl

/-- A version is appended to the chain of its key. -/
theorem chain_push {v : Version} :
    (s.modifyChains (s.shardOf key) (Chains.push key v)).chain k =
      if key = k then s.chain k ++ [v] else s.chain k := by
  rw [chain_modifyChains (s.shardOf_lt key)]
  by_cases hk : key = k
  · subst hk
    rw [if_pos rfl, if_pos rfl, Chains.push, AList.lookup_insert]
    rfl
  · rw [if_neg hk, Chains.push, AList.lookup_insert_ne (Ne.symm hk)]
    split_ifs with h
    · rw [chain, h]
    · rfl

theorem newerThan_lookup :
    newerThan ((s.chains (s.shardOf k)).lookup k) r = newerThan (some (s.chain k)) r := by
  rw [chain]
  cases (s.chains (s.shardOf k)).lookup k <;> rfl

/-- On an ascending chain, the last version tells whether the key is newer. -/
theorem newerThan_iff {chain : List Version} (h : Ascending chain) :
    newerThan (some chain) r = true ↔ Newer chain r := by
  rw [h.newer_iff, newerThan, Option.bind_some]
  cases chain.getLast? <;> simp

/-! ## Reads -/

theorem partitioned_le {chain : List Version} (h : Sorted chain) (r : ℕ) :
    Partitioned (fun v : Version => decide (v.commitTs ≤ r)) chain :=
  h.imp fun hle hle' => decide_eq_true (hle.trans (of_decide_eq_true hle'))

/-- On a chain whose versions at or below `r` come first, the last of them is read. -/
theorem visibleValue_of_partitioned {chain : List Version}
    (h : Partitioned (fun v : Version => decide (v.commitTs ≤ r)) chain) :
    visibleValue (some chain) r = visible chain r := by
  have htake := partitionPoint_take h
  have hlen := partitionPoint_eq_length h
  have hlast : (chain.filter fun v => decide (v.commitTs ≤ r)).getLast? =
      if partitionPoint chain (fun v => decide (v.commitTs ≤ r)) < 1 then none
      else chain[partitionPoint chain (fun v => decide (v.commitTs ≤ r)) - 1]? := by
    rw [← htake, List.getLast?_eq_getElem?, htake, ← hlen, ← htake, List.getElem?_take]
    split_ifs <;> first | rfl | omega
  rw [visible, upTo, hlast]
  simp only [visibleValue, Option.bind_eq_bind, Option.bind_some]
  split_ifs <;> rfl

theorem visibleValue_eq {chain : List Version} (h : Sorted chain) :
    visibleValue (some chain) r = visible chain r :=
  visibleValue_of_partitioned (partitioned_le h r)

theorem get_eq_visibleValue : s.get k r = visibleValue (some (s.chain k)) r := by
  rw [get, chain]
  cases (s.chains (s.shardOf k)).lookup k <;> rfl

/-- A read returns the value visible in the chain of its key. -/
theorem get_eq (h : Sorted (s.chain k)) : s.get k r = visible (s.chain k) r := by
  rw [get_eq_visibleValue, visibleValue_eq h]

/-! ## Commits -/

theorem toLock_sortedLT (ws rs : List ℕ) : (toLock ws rs).Pairwise (· < ·) :=
  dedupRuns_sortedLT (List.pairwise_insertionSort _ _)

@[simp] theorem mem_toLock {ws rs : List ℕ} : i ∈ toLock ws rs ↔ i ∈ ws ∨ i ∈ rs := by
  rw [toLock, mem_dedupRuns, List.mem_insertionSort, List.mem_append]

/-- The shards are locked in ascending order. -/
theorem lockOrder_sortedLT (s : MemoryStore) (writes : List WriteEntry) (reads : List Key) :
    (s.lockOrder writes reads).Pairwise (· < ·) := by
  unfold lockOrder
  split
  · exact List.pairwise_singleton _ _
  · exact toLock_sortedLT _ _

/-- A locked shard is found at the position of its guard. -/
theorem binarySearch_toLock {ws rs : List ℕ} (hi : i ∈ toLock ws rs) :
    ∃ pos, binarySearch (toLock ws rs) i = .ok pos ∧ (toLock ws rs).getD pos 0 = i := by
  obtain ⟨pos, hpos, hget⟩ := binarySearch_of_mem (toLock_sortedLT ws rs) hi
  exact ⟨pos, hpos, by rw [List.getD_eq_getElem?_getD, hget]; rfl⟩

/-- With the shards of the keys locked, validation fails on the first key whose
    chain is newer than the snapshot. -/
theorem validate_eq {ws rs : List ℕ} {keys : List Key}
    (h : ∀ k ∈ keys, s.shardOf k ∈ toLock ws rs) :
    s.validate r (toLock ws rs) (keys.zip (keys.map s.shardOf)) =
      match keys.find? fun k => newerThan (some (s.chain k)) r with
      | some k => .error (.conflict k.length)
      | none => .ok () := by
  induction keys with
  | nil => rfl
  | cons k keys ih =>
    obtain ⟨pos, hpos, hget⟩ := binarySearch_toLock (h k List.mem_cons_self)
    rw [List.map_cons, List.zip_cons_cons, validate, hpos]
    simp only
    rw [hget, newerThan_lookup, List.find?_cons]
    cases newerThan (some (s.chain k)) r with
    | true => rfl
    | false => exact ih fun k hk => h k (List.mem_cons_of_mem _ hk)

/-- With the shards of the keys locked, the writes are appended as on recovery. -/
theorem apply_eq {c : ℕ} {ws rs : List ℕ} {writes : List WriteEntry}
    (h : ∀ e ∈ writes, s.shardOf e.1 ∈ toLock ws rs) :
    apply c (toLock ws rs) (writes.zip (writes.map fun e => s.shardOf e.1)) s =
      s.installRecovered c writes := by
  induction writes generalizing s with
  | nil => rfl
  | cons e writes ih =>
    obtain ⟨key, value⟩ := e
    obtain ⟨pos, hpos, hget⟩ := binarySearch_toLock (h ⟨key, value⟩ List.mem_cons_self)
    have hmask : ∀ k, (s.modifyChains (s.shardOf key) (Chains.push key ⟨c, value⟩)).shardOf k =
        s.shardOf k := fun k => shardOf_congr mask_modifyChains
    have ih := @ih (s.modifyChains (s.shardOf key) (Chains.push key ⟨c, value⟩))
      fun e he => hmask e.1 ▸ h e (List.mem_cons_of_mem _ he)
    simp only [hmask] at ih
    rw [List.map_cons, List.zip_cons_cons, apply, hpos]
    simp only
    rw [hget, ih]
    rfl

/-- Every write is appended to the chain of its key. -/
theorem installRecovered_chain (store : MemoryStore) (c : ℕ) (writes : List WriteEntry) (k : Key) :
    (store.installRecovered c writes).chain k =
      store.chain k ++ (writes.lookupAll k).map (⟨c, ·⟩) := by
  induction writes generalizing store with
  | nil => simp [installRecovered]
  | cons e writes ih =>
    obtain ⟨key, value⟩ := e
    change (installRecovered _ c writes).chain k = _
    rw [ih, chain_push]
    by_cases hk : key = k
    · subst hk
      rw [if_pos rfl, List.lookupAll_cons_eq, List.map_cons, List.append_assoc]
      rfl
    · rw [if_neg hk, List.lookupAll_cons_ne _ _ (Ne.symm hk)]

/-- The first key in conflict: written, then read. -/
def conflict? (s : MemoryStore) (readTs : ℕ) (writes : List WriteEntry) (reads : List Key) :
    Option Key :=
  (writes.map (·.1) ++ reads).find? fun k => newerThan (some (s.chain k)) readTs

/-- What a commit comes to: a failure on the first key in conflict, and otherwise
    its writes appended to the chains. -/
def Commits (s : MemoryStore) (r c : ℕ) (writes : List WriteEntry) (reads : List Key)
    (result : Except TxnError MemoryStore) : Prop :=
  (∃ k, s.conflict? r writes reads = some k ∧ result = .error (.conflict k.length)) ∨
    ∃ s', s.conflict? r writes reads = none ∧ result = .ok s' ∧ s'.mask = s.mask ∧
      ∀ k, s'.chain k = s.chain k ++ (writes.lookupAll k).map (⟨c, ·⟩)

/-- Both paths of a commit do the same. -/
theorem tryCommit_eq (s : MemoryStore) (r c : ℕ) (writes : List WriteEntry) (reads : List Key) :
    s.tryCommit r c writes reads = match s.conflict? r writes reads with
      | some k => .error (.conflict k.length)
      | none => .ok (s.installRecovered c writes) := by
  unfold tryCommit
  split
  · next key value =>
    rw [newerThan_lookup]
    cases hn : newerThan (some (s.chain key)) r <;> simp [conflict?, hn, installRecovered]
  · have hw : ∀ e ∈ writes, s.shardOf e.1 ∈
        toLock (writes.map fun e => s.shardOf e.1) (reads.map s.shardOf) := fun e he =>
      mem_toLock.2 (.inl (List.mem_map.2 ⟨e, he, rfl⟩))
    have hr : ∀ k ∈ reads, s.shardOf k ∈
        toLock (writes.map fun e => s.shardOf e.1) (reads.map s.shardOf) := fun k hk =>
      mem_toLock.2 (.inr (List.mem_map_of_mem hk))
    have hvw := @validate_eq s r _ _ (writes.map (·.1)) fun k hk => by
      obtain ⟨e, he, rfl⟩ := List.mem_map.1 hk
      exact hw e he
    rw [List.map_map] at hvw
    simp only [Function.comp_def] at hvw
    simp only [conflict?, tryCommitLocked, hvw, validate_eq hr, apply_eq hw, List.find?_append]
    cases (writes.map (·.1)).find? fun k => newerThan (some (s.chain k)) r with
    | some k => rfl
    | none => cases reads.find? fun k => newerThan (some (s.chain k)) r <;> rfl

theorem mask_installRecovered (s : MemoryStore) (c : ℕ) (writes : List WriteEntry) :
    (s.installRecovered c writes).mask = s.mask := by
  induction writes generalizing s with
  | nil => rfl
  | cons e writes ih => exact ih _

/-- A commit fails on the first key in conflict, and otherwise appends its writes. -/
theorem tryCommit_commits (s : MemoryStore) (r c : ℕ) (writes : List WriteEntry)
    (reads : List Key) : s.Commits r c writes reads (s.tryCommit r c writes reads) := by
  rw [tryCommit_eq]
  cases hk : s.conflict? r writes reads with
  | some k => exact .inl ⟨k, hk, rfl⟩
  | none =>
    exact .inr ⟨_, hk, rfl, s.mask_installRecovered c writes, s.installRecovered_chain c writes⟩

end MemoryStore

/-! ## Garbage collection -/

/-- A tombstone at or below `w`, alone in its chain. -/
def Dead (w : ℕ) (c : List Version) : Prop := ∃ v, c = [v] ∧ v.commitTs ≤ w ∧ v.value = none

/-- A chain is cut, and dropped if what is left is dead. -/
theorem retainChain_eq {c : List Version} (hc : Sorted c) (w : ℕ) :
    (Dead w (cut w c) ∧ retainChain w c = (none, c.length)) ∨
      (¬Dead w (cut w c) ∧ (retainChain w c).1 = some (cut w c) ∧
        (cut w c).length + (retainChain w c).2 = c.length) := by
  have hlen := partitionPoint_eq_length (MemoryStore.partitioned_le hc w)
  have hle : (upTo c w).length ≤ c.length := List.length_filter_le _ _
  have hcut : (if 1 < (upTo c w).length then c.drop ((upTo c w).length - 1) else c) = cut w c := by
    split_ifs with h1
    · rfl
    · rw [cut, Nat.sub_eq_zero_of_le (not_lt.1 h1), List.drop_zero]
  have hsum : (if 1 < (upTo c w).length then (upTo c w).length - 1 else 0) =
      (upTo c w).length - 1 := by
    split_ifs <;> omega
  have hlength : (cut w c).length + ((upTo c w).length - 1) = c.length := by
    rw [cut, List.length_drop]
    omega
  change partitionPoint c (fun v => decide (v.commitTs ≤ w)) = (upTo c w).length at hlen
  simp only [retainChain, hlen, hcut, hsum]
  -- what is kept has no version, one, or more
  generalize cut w c = kept at hlength
  rcases kept with _ | ⟨v, _ | ⟨v', kept⟩⟩
  · exact .inr ⟨(by rintro ⟨v, ⟨⟩, -⟩), rfl, hlength⟩
  · by_cases hdead : v.commitTs ≤ w ∧ v.value = none
    · refine .inl ⟨⟨v, rfl, hdead⟩, ?_⟩
      simp only [hdead, and_self, if_true, ← hlength, List.length_singleton, Nat.add_comm]
    · refine .inr ⟨?_, by simp only [hdead, if_false], by simp only [hdead, if_false, hlength]⟩
      rintro ⟨v, ⟨⟩, hv⟩
      exact hdead hv
  · exact .inr ⟨(by rintro ⟨v, ⟨⟩, -⟩), rfl, hlength⟩

theorem retainChain_getD {c : List Version} (hc : Ascending c) (w : ℕ) :
    (retainChain w c).1.getD [] = prune w c := by
  rcases retainChain_eq hc.sorted w with ⟨⟨v, hv, hdead⟩, heq⟩ | ⟨hlive, heq, -⟩
  · rw [heq, prune, ← cut, hv]
    exact (if_pos hdead).symm
  · rw [heq]
    rcases prune_eq w c with hp | ⟨-, hdead⟩
    · exact hp.symm
    · exact absurd hdead hlive

namespace MemoryStore

variable {s : MemoryStore} {k : Key} {i : ℕ}

/-- Pruning a shard prunes the chains of its keys. -/
theorem chain_pruneShard {w : ℕ} (hi : i < s.shards.length) (h : Ascending (s.chain k)) :
    (s.pruneShard w i).1.chain k = if i = s.shardOf k then prune w (s.chain k) else s.chain k := by
  rw [pruneShard, chain_modifyChains hi]
  split_ifs with heq
  · rw [AList.lookup_retain, ← retainChain_getD h, chain, heq]
    cases (s.chains (s.shardOf k)).lookup k <;> rfl
  · rfl

@[simp] theorem mask_pruneShard {w : ℕ} : (s.pruneShard w i).1.mask = s.mask := rfl

/-- The shards are empty at first. -/
theorem chains_withShards (shards i : ℕ) : (withShards shards).chains i = ∅ := by
  rw [chains, withShards, List.getD_eq_getElem?_getD, List.getElem?_getD_replicate_default_eq]

@[simp] theorem chain_new : new.chain k = [] := by
  rw [chain, new, chains_withShards]
  rfl

end MemoryStore

end TxnDb
