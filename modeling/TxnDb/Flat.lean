import TxnDb.Garbage
import TxnDb.Lib.Trace

/-!
# The flat store

What the shards are for does not show: whatever is called, the sharded store
answers as a single map from keys to chains does (`sharded_flat`). The
flat store has neither shards nor a fast path (`FlatStore`): it checks the keys
written, then those read, in order, and then appends the writes.

A sharded store is a flat one (`Flattens`) if they have the same chains, and each
shard only those of its own keys.
-/

namespace TxnDb

open Search

/-- A call of a store. -/
inductive StoreCall
  | get (key : Key) (readTs : ℕ)
  | tryCommit (readTs commitTs : ℕ) (writes : List WriteEntry) (reads : List Key)
  | collectGarbage (lowWatermark : ℕ)
  | keyCount
  | installRecovered (commitTs : ℕ) (writes : List WriteEntry)

/-- What a call of a store returns. -/
inductive StoreAnswer
  | value (value : Option Value)
  | committed (result : Except TxnError Unit)
  | count (n : ℕ)
  | installed
  deriving DecidableEq

/-- A call of the sharded store. -/
def MemoryStore.call (s : MemoryStore) : StoreCall → Option (MemoryStore × StoreAnswer)
  | .get key readTs => some (s, .value (s.get key readTs))
  | .tryCommit readTs commitTs writes reads =>
    match s.tryCommit readTs commitTs writes reads with
    | .ok s' => some (s', .committed (.ok ()))
    | .error e => some (s, .committed (.error e))
  | .collectGarbage w => some ((s.collectGarbage w).1, .count (s.collectGarbage w).2)
  | .keyCount => some (s, .count s.keyCount)
  | .installRecovered commitTs writes => some (s.installRecovered commitTs writes, .installed)

/-! ## The specification -/

/-- The flat store: one map, from keys to chains. -/
structure FlatStore where
  chains : Chains

namespace FlatStore

def new : FlatStore := ⟨∅⟩

def get (f : FlatStore) (key : Key) (readTs : ℕ) : Option Value :=
  visibleValue (f.chains.lookup key) readTs

/-- The writes are appended, in order. -/
def append (f : FlatStore) (commitTs : ℕ) (writes : List WriteEntry) : FlatStore :=
  ⟨writes.foldl (fun chains e => chains.push e.1 ⟨commitTs, e.2⟩) f.chains⟩

/-- A commit fails on the first key newer than its snapshot, among the keys written, then
    the keys read. -/
def tryCommit (f : FlatStore) (readTs commitTs : ℕ) (writes : List WriteEntry)
    (reads : List Key) : Except TxnError FlatStore :=
  match (writes.map (·.1) ++ reads).find? fun key => newerThan (f.chains.lookup key) readTs with
  | some key => .error (.conflict key.length)
  | none => .ok (f.append commitTs writes)

def collectGarbage (f : FlatStore) (lowWatermark : ℕ) : FlatStore × ℕ :=
  (⟨f.chains.collect lowWatermark⟩, f.chains.reclaimed lowWatermark)

def keyCount (f : FlatStore) : ℕ := f.chains.entries.length

/-- A call of the flat store. -/
def call (f : FlatStore) : StoreCall → Option (FlatStore × StoreAnswer)
  | .get key readTs => some (f, .value (f.get key readTs))
  | .tryCommit readTs commitTs writes reads =>
    match f.tryCommit readTs commitTs writes reads with
    | .ok f' => some (f', .committed (.ok ()))
    | .error e => some (f, .committed (.error e))
  | .collectGarbage w => some ((f.collectGarbage w).1, .count (f.collectGarbage w).2)
  | .keyCount => some (f, .count f.keyCount)
  | .installRecovered commitTs writes => some (f.append commitTs writes, .installed)

end FlatStore

/-! ## The refinement -/

variable {s : MemoryStore} {f : FlatStore} {i r c w : ℕ} {k key : Key} {v : Version}
  {writes : List WriteEntry} {reads : List Key}

/-- The sharded store `s` has the chains of the flat store `f`, each in the shard its key
    belongs to. -/
structure Flattens (s : MemoryStore) (f : FlatStore) : Prop where
  home : ∀ i k, k ∈ s.chains i → s.shardOf k = i
  lookup : ∀ k, (s.chains (s.shardOf k)).lookup k = f.chains.lookup k

namespace Flattens

theorem withShards (shards : ℕ) : Flattens (.withShards shards) .new := by
  have hempty := MemoryStore.chains_withShards shards
  exact ⟨fun i k hk => absurd (hempty i ▸ hk) (AList.notMem_empty k), fun k => by rw [hempty]; rfl⟩

/-- A version is appended to the chain of its key. -/
theorem push (h : Flattens s f) :
    Flattens (s.modifyChains (s.shardOf key) (Chains.push key v)) ⟨f.chains.push key v⟩ := by
  have hshard : ∀ k, (s.modifyChains (s.shardOf key) (Chains.push key v)).shardOf k = s.shardOf k :=
    fun k => MemoryStore.shardOf_congr MemoryStore.mask_modifyChains
  have hchains := @MemoryStore.chains_modifyChains s _ (Chains.push key v) (s.shardOf_lt key)
  refine ⟨fun i k hk => ?_, fun k => ?_⟩
  · rw [hshard]
    rw [hchains] at hk
    split_ifs at hk with hi
    · rcases (AList.mem_insert _).1 hk with rfl | hk
      · exact hi
      · exact h.home i k hk
    · exact h.home i k hk
  · rw [hshard, hchains]
    by_cases hk : k = key
    · subst hk
      rw [if_pos rfl, Chains.push, Chains.push, AList.lookup_insert, AList.lookup_insert, h.lookup]
    · have hne : ∀ m : Chains, (m.push key v).lookup k = m.lookup k := fun m =>
        AList.lookup_insert_ne hk
      rw [hne, ← h.lookup k]
      split_ifs
      · rw [hne]
      · rfl

theorem append (h : Flattens s f) (c : ℕ) (writes : List WriteEntry) :
    Flattens (s.installRecovered c writes) (f.append c writes) := by
  induction writes generalizing s f with
  | nil => exact h
  | cons e writes ih => exact ih h.push

/-- A key is as new in both. -/
theorem newerThan_eq (h : Flattens s f) (k : Key) (r : ℕ) :
    newerThan (some (s.chain k)) r = newerThan (f.chains.lookup k) r := by
  rw [← MemoryStore.newerThan_lookup, h.lookup]

theorem tryCommit (h : Flattens s f) (r c : ℕ) (writes : List WriteEntry) (reads : List Key) :
    (∃ e, s.tryCommit r c writes reads = .error e ∧ f.tryCommit r c writes reads = .error e) ∨
      ∃ s' f', s.tryCommit r c writes reads = .ok s' ∧ f.tryCommit r c writes reads = .ok f' ∧
        Flattens s' f' := by
  have hconflict : ((writes.map (·.1) ++ reads).find? fun key =>
      newerThan (f.chains.lookup key) r) = s.conflict? r writes reads := by
    simp only [MemoryStore.conflict?, h.newerThan_eq]
  rw [MemoryStore.tryCommit_eq, FlatStore.tryCommit, hconflict]
  cases s.conflict? r writes reads with
  | some k => exact .inl ⟨_, rfl, rfl⟩
  | none => exact .inr ⟨_, _, rfl, rfl, h.append c writes⟩

/-- The entries of the flat store are those of the shards. -/
theorem entries_perm (h : Flattens s f) :
    (s.shards.flatMap AList.entries).Perm f.chains.entries := by
  rw [s.shards_eq, List.flatMap_map]
  refine AList.flatMap_entries_perm List.nodup_range
    (fun i j k hi hj => (h.home i k hi).symm.trans (h.home j k hj)) fun e => ?_
  obtain ⟨k, c⟩ := e
  rw [← AList.mem_lookup_iff, ← h.lookup k, AList.mem_lookup_iff]
  constructor
  · rintro ⟨i, -, hi⟩
    rwa [h.home i k (List.mem_keys_of_mem hi)]
  · intro hk
    exact ⟨s.shardOf k, List.mem_range.2 (s.shardOf_lt k), hk⟩

/-- What is counted over the shards is counted over the flat store. -/
theorem sum_eq (h : Flattens s f) (g : (_ : Key) × List Version → ℕ) :
    (s.shards.map fun m => (m.entries.map g).sum).sum = (f.chains.entries.map g).sum := by
  rw [← (h.entries_perm.map g).sum_eq, List.map_flatMap, List.flatMap_def, List.sum_flatten,
    List.map_map]
  rfl

theorem keyCount (h : Flattens s f) : s.keyCount = f.keyCount := by
  rw [FlatStore.keyCount, ← h.entries_perm.length_eq, List.length_flatMap, MemoryStore.keyCount]

theorem collectGarbage (h : Flattens s f) (w : ℕ) :
    Flattens (s.collectGarbage w).1 (f.collectGarbage w).1 ∧
      (s.collectGarbage w).2 = (f.collectGarbage w).2 := by
  obtain ⟨-, hchains, hcount⟩ := s.collectGarbage_eq w
  refine ⟨⟨fun i k hk => ?_, fun k => ?_⟩, hcount.trans (h.sum_eq _)⟩
  · rw [MemoryStore.shardOf_collectGarbage]
    rw [hchains, ← AList.lookup_isSome, Chains.lookup_collect] at hk
    obtain ⟨c, hc⟩ := Option.isSome_iff_exists.1 hk
    obtain ⟨c, hc, -⟩ := Option.bind_eq_some_iff.1 hc
    exact h.home i k (AList.lookup_isSome.1 (Option.isSome_of_eq_some hc))
  · rw [MemoryStore.shardOf_collectGarbage, MemoryStore.lookup_collectGarbage, h.lookup]
    exact (Chains.lookup_collect ..).symm

/-- Both stores answer a call alike. -/
theorem call {s' : MemoryStore} {call : StoreCall} {answer : StoreAnswer} (h : Flattens s f)
    (hcall : s.call call = some (s', answer)) :
    ∃ f', f.call call = some (f', answer) ∧ Flattens s' f' := by
  cases call with
  | get key r =>
    obtain ⟨rfl, rfl⟩ := Prod.mk.inj (Option.some.inj hcall)
    refine ⟨f, ?_, h⟩
    rw [FlatStore.call, FlatStore.get, ← h.lookup, MemoryStore.get]
  | tryCommit r c writes reads =>
    rw [MemoryStore.call] at hcall
    rw [FlatStore.call]
    rcases h.tryCommit r c writes reads with ⟨e, herr, herr'⟩ | ⟨s₁, f₁, hok, hok', h₁⟩
    · rw [herr] at hcall
      obtain ⟨rfl, rfl⟩ := Prod.mk.inj (Option.some.inj hcall)
      rw [herr']
      exact ⟨f, rfl, h⟩
    · rw [hok] at hcall
      obtain ⟨rfl, rfl⟩ := Prod.mk.inj (Option.some.inj hcall)
      rw [hok']
      exact ⟨f₁, rfl, h₁⟩
  | collectGarbage w =>
    obtain ⟨rfl, rfl⟩ := Prod.mk.inj (Option.some.inj hcall)
    exact ⟨_, by rw [FlatStore.call, (h.collectGarbage w).2], (h.collectGarbage w).1⟩
  | keyCount =>
    obtain ⟨rfl, rfl⟩ := Prod.mk.inj (Option.some.inj hcall)
    exact ⟨f, by rw [FlatStore.call, h.keyCount], h⟩
  | installRecovered c writes =>
    obtain ⟨rfl, rfl⟩ := Prod.mk.inj (Option.some.inj hcall)
    exact ⟨_, rfl, h.append c writes⟩

end Flattens

/-! ## The guards -/

namespace MemoryStore

theorem nextPowerOfTwo_pow {n j fuel : ℕ} (hj : j ≤ n) (hfuel : n ≤ j + fuel) :
    nextPowerOfTwo (2 ^ n) fuel (2 ^ j) = 2 ^ n := by
  induction fuel generalizing j with
  | zero => rw [nextPowerOfTwo, Nat.le_antisymm hj hfuel]
  | succ fuel ih =>
    rw [nextPowerOfTwo]
    split_ifs with hlt
    · rw [← pow_succ', ih ((Nat.pow_lt_pow_iff_right Nat.one_lt_two).1 hlt) (by omega)]
    · rw [Nat.le_antisymm hj ((Nat.pow_le_pow_iff_right Nat.one_lt_two).1 (not_lt.1 hlt))]

/-- There is a store with `2 ^ n` shards, for every `n`. -/
theorem length_withShards_pow (n : ℕ) : (withShards (2 ^ n)).shards.length = 2 ^ n := by
  rw [withShards, List.length_replicate, max_eq_left Nat.one_le_two_pow]
  exact nextPowerOfTwo_pow (Nat.zero_le n) (by have := Nat.lt_two_pow_self (n := n); omega)

/-- Every key a commit touches finds the guard of its shard. -/
def Guards (s : MemoryStore) (writes : List WriteEntry) (reads : List Key) : Prop :=
  ∀ key, (key ∈ writes.map (·.1) ∨ key ∈ reads) →
    ∃ pos, binarySearch (toLock (writes.map fun e => s.shardOf e.1) (reads.map s.shardOf))
        (s.shardOf key) = .ok pos ∧
      (toLock (writes.map fun e => s.shardOf e.1) (reads.map s.shardOf))[pos]? =
        some (s.shardOf key)

theorem guards (s : MemoryStore) (writes : List WriteEntry) (reads : List Key) :
    s.Guards writes reads := by
  refine fun key hkey => binarySearch_of_mem (toLock_sortedLT _ _) (mem_toLock.2 ?_)
  refine hkey.imp (fun hw => ?_) fun hr => List.mem_map_of_mem hr
  obtain ⟨e, he, rfl⟩ := List.mem_map.1 hw
  exact List.mem_map.2 ⟨e, he, rfl⟩

end MemoryStore

theorem MemoryStore.exists_call (s : MemoryStore) (call : StoreCall) :
    ∃ p, s.call call = some p := by
  cases call with
  | tryCommit r c writes reads =>
    rw [MemoryStore.call]
    split <;> exact ⟨_, rfl⟩
  | _ => exact ⟨_, rfl⟩

/-- Whatever is called, the sharded store answers as the flat store does; no shard has
    the chain of a key of another one, and no commit misses a guard. -/
theorem sharded_flat (shards : ℕ) (calls : List StoreCall) : ∃ answers s f,
    Trace.exec MemoryStore.call (.withShards shards) calls = some (answers, s) ∧
      Trace.exec FlatStore.call .new calls = some (answers, f) ∧
      (∀ i k, k ∈ s.chains i → s.shardOf k = i) ∧
      (∀ k, (s.chains (s.shardOf k)).lookup k = f.chains.lookup k) ∧
      ∀ writes reads, s.Guards writes reads := by
  obtain ⟨⟨answers, s⟩, hexec⟩ :=
    Trace.exec_total MemoryStore.exists_call (.withShards shards) calls
  obtain ⟨f, hexec', h⟩ : ∃ f, Trace.exec FlatStore.call .new calls = some (answers, f) ∧
      Flattens s f := Trace.exec_simulates Flattens.call (Flattens.withShards shards) hexec
  exact ⟨answers, s, f, hexec, hexec', h.home, h.lookup, s.guards⟩

end TxnDb
