import Mathlib.Data.Finset.Dedup
import TxnDb.Contract
import TxnDb.Lib.Serial
import TxnDb.Txn

/-!
# A transaction over its snapshot

Whatever is called on a transaction, in whatever order, it behaves as the map of
its snapshot with its own writes on top (`transaction_overlay`): a read returns
what was written last, or what is in the snapshot; and what the commit passes to
the store is one write for each key written, the last one, with, for a
serializable transaction, the other keys that some read found in the snapshot
(`FromSnapshot`). Both follow from what the transaction has buffered and recorded
(`Recorded`).

Leaving out the keys that are also written changes nothing: they are validated
as writes.
-/

namespace TxnDb

open Mvcc

/-- A call on a transaction. -/
inductive TxCall
  | get (key : Key)
  | put (key : Key) (value : Value)
  | delete (key : Key)

namespace Transaction

/-- A call on a transaction, on a store: the operation observed, and the transaction. -/
def call (tx : Transaction) (store : MemoryStore) : TxCall → Op Key Value × Transaction
  | .get key => (.get key (tx.get store key).1, (tx.get store key).2)
  | .put key value => (.write key (some value), tx.put key value)
  | .delete key => (.write key none, tx.delete key)

/-- Calls on a transaction, in turn, each on the store as it is at that time. -/
def run (tx : Transaction) (calls : List (MemoryStore × TxCall)) :
    List (Op Key Value) × Transaction :=
  calls.foldl (fun p c => (p.1 ++ [(p.2.call c.1 c.2).1], (p.2.call c.1 c.2).2)) ([], tx)

/-- What the commit of the transaction passes to the store, in some order. -/
def Passes (tx : Transaction) (batch : List WriteEntry) (reads : List Key) : Prop :=
  batch.Perm tx.writes.entries ∧ reads.Nodup ∧ reads.toFinset = tx.commitReads

end Transaction

variable {tx : Transaction} {ops : List (Op Key Value)} {k : Key} {value : Option Value} {r : ℕ}
  {serializable : Bool} {snapshot : Key → Option Value} {batch : List WriteEntry} {reads : List Key}

/-- Some read of `k` was served from the snapshot: nothing was written to `k` before it. -/
def FromSnapshot (ops : List (Op Key Value)) (k : Key) : Prop :=
  ∃ pre value post, ops = pre ++ .get k value :: post ∧ buffered pre k = none

theorem buffered_append_insert (h : ∀ k, buffered ops k = tx.writes.lookup k) (k' : Key) :
    buffered (ops ++ [.write k value]) k' = (tx.writes.insert k value).lookup k' := by
  rw [buffered_append_write, h]
  by_cases hk : k = k'
  · rw [if_pos hk, ← hk, AList.lookup_insert]
  · rw [if_neg hk, AList.lookup_insert_ne (Ne.symm hk)]

/-- The transaction buffers what the operations last wrote, and has recorded, if it records
    any, the keys they read before writing them. -/
structure Recorded (ops : List (Op Key Value)) (tx : Transaction) : Prop where
  writes : ∀ k, buffered ops k = tx.writes.lookup k
  reads : ∀ R, tx.reads = some R → ∀ k, k ∈ R ↔ ReadsFresh k ops

namespace Recorded

theorem new : Recorded [] (.new r serializable) where
  writes _ := rfl
  reads R hR k := by
    cases serializable with
    | false => cases hR
    | true =>
      obtain rfl := Option.some.inj hR
      exact iff_of_false (Finset.notMem_empty k) id

/-- A write is buffered. -/
theorem write (h : Recorded ops tx) (k : Key) (value : Option Value) :
    Recorded (ops ++ [.write k value]) { tx with writes := tx.writes.insert k value } where
  writes := buffered_append_insert h.writes
  reads R hR k' := by rw [h.reads R hR, readsFresh_append_write]

/-- A read of a key that is buffered records nothing. -/
theorem getOwn {pending : Option Value} (h : Recorded ops tx) (value : Option Value)
    (hk : tx.writes.lookup k = some pending) : Recorded (ops ++ [.get k value]) tx where
  writes k' := buffered_append_get.trans (h.writes k')
  reads R hR k' := by
    have hne : ¬(k = k' ∧ buffered ops k' = none) := by
      rintro ⟨rfl, hnone⟩
      rw [h.writes, hk] at hnone
      cases hnone
    rw [h.reads R hR, readsFresh_append_get, or_iff_left hne]

/-- A read of any other key records it. -/
theorem getStore (h : Recorded ops tx) (value : Option Value) (hk : tx.writes.lookup k = none) :
    Recorded (ops ++ [.get k value]) { tx with reads := tx.reads.map (insert k) } where
  writes k' := buffered_append_get.trans (h.writes k')
  reads R hR k' := by
    obtain ⟨R', hR', rfl⟩ := Option.map_eq_some_iff.1 hR
    have hnone : buffered ops k = none := (h.writes k).trans hk
    rw [Finset.mem_insert, h.reads R' hR', readsFresh_append_get, or_comm]
    exact or_congr_right ⟨fun heq => ⟨heq.symm, heq ▸ hnone⟩, fun heq => heq.1.symm⟩

/-- The keys to validate are those read before being written, and not written later. -/
theorem mem_commitReads (h : Recorded ops tx) :
    k ∈ tx.commitReads ↔ tx.reads.isSome ∧ ReadsFresh k ops ∧ buffered ops k = none := by
  rw [Transaction.commitReads, h.writes, AList.lookup_eq_none]
  cases hR : tx.reads with
  | none => simp
  | some R => simp [h.reads R hR]

end Recorded

/-- The transaction is what the operations made of one that began at `r`, and they replay
    from the snapshot. -/
structure Overlays (snapshot : Key → Option Value) (r : ℕ) (serializable : Bool)
    (ops : List (Op Key Value)) (tx : Transaction) : Prop extends Recorded ops tx where
  readTs : tx.readTs = r
  isSome : tx.reads.isSome = serializable
  replays : Replays snapshot ops

namespace Overlays

theorem new : Overlays snapshot r serializable [] (.new r serializable) where
  toRecorded := .new
  readTs := rfl
  isSome := by cases serializable <;> rfl
  replays := trivial

/-- A write is buffered. -/
theorem write (h : Overlays snapshot r serializable ops tx) (k : Key) (value : Option Value) :
    Overlays snapshot r serializable (ops ++ [.write k value])
      { tx with writes := tx.writes.insert k value } where
  toRecorded := h.toRecorded.write k value
  readTs := h.readTs
  isSome := h.isSome
  replays := replays_append_write.2 h.replays

/-- A read returns what is buffered, or else what is in the snapshot, and is then recorded. -/
theorem get (h : Overlays snapshot r serializable ops tx) {store : MemoryStore}
    (hsnap : ∀ k, store.get k r = snapshot k) (k : Key) :
    Overlays snapshot r serializable (ops ++ [.get k (tx.get store k).1]) (tx.get store k).2 := by
  rw [Transaction.get]
  -- a pending delete is served like any other write
  cases hk : tx.writes.lookup k with
  | some pending =>
    refine ⟨h.toRecorded.getOwn _ hk, h.readTs, h.isSome, replays_append_get.2 ⟨h.replays, ?_⟩⟩
    rw [execOps_apply, h.writes, hk]
    rfl
  | none =>
    refine ⟨h.toRecorded.getStore _ hk, h.readTs, Option.isSome_map.trans h.isSome,
      replays_append_get.2 ⟨h.replays, ?_⟩⟩
    rw [execOps_apply, h.writes, hk, h.readTs, hsnap]
    rfl

theorem call (h : Overlays snapshot r serializable ops tx) {store : MemoryStore}
    (hsnap : ∀ k, store.get k r = snapshot k) (call : TxCall) :
    Overlays snapshot r serializable (ops ++ [(tx.call store call).1]) (tx.call store call).2 := by
  cases call with
  | get k => exact h.get hsnap k
  | put k value => exact h.write k (some value)
  | delete k => exact h.write k none

/-- Whatever is called, the transaction stays an overlay. -/
theorem run {calls : List (MemoryStore × TxCall)}
    (hsnap : ∀ c ∈ calls, ∀ k, c.1.get k r = snapshot k) :
    Overlays snapshot r serializable ((Transaction.new r serializable).run calls).1
      ((Transaction.new r serializable).run calls).2 := by
  induction calls using List.reverseRecOn with
  | nil => exact .new
  | append_singleton calls c ih =>
    rw [Transaction.run, List.foldl_append, List.foldl_cons, List.foldl_nil]
    exact (ih fun c hc => hsnap c (List.mem_append_left _ hc)).call
      (hsnap c (List.mem_append_right _ (List.mem_singleton_self c))) c.2

/-- The batch has what was last written to each key. -/
theorem mem_batch (h : Overlays snapshot r serializable ops tx) (hpass : tx.Passes batch reads) :
    batch.NodupKeys ∧ ∀ k value, ⟨k, value⟩ ∈ batch ↔ buffered ops k = some value := by
  refine ⟨(List.perm_nodupKeys hpass.1).2 tx.writes.nodupKeys, fun k value => ?_⟩
  rw [h.writes, hpass.1.mem_iff]
  exact (List.mem_dlookup_iff tx.writes.nodupKeys).symm

/-- The keys validated are those read from the snapshot, and not written. -/
theorem mem_reads (h : Overlays snapshot r serializable ops tx) (hpass : tx.Passes batch reads)
    (k : Key) : k ∈ reads ↔ serializable = true ∧ FromSnapshot ops k ∧ buffered ops k = none := by
  rw [← List.mem_toFinset, hpass.2.2, h.mem_commitReads, h.isSome, FromSnapshot, readsFresh_iff]

end Overlays

/-- A transaction is an exact overlay over its snapshot: its reads, and what it passes to the
    store when it commits, are those of the operations made on it, and validating the
    reads it passes comes to the same as validating all those served from the snapshot. -/
theorem transaction_overlay {calls : List (MemoryStore × TxCall)}
    (hsnap : ∀ c ∈ calls, ∀ k, c.1.get k r = snapshot k)
    (hrun : (Transaction.new r serializable).run calls = (ops, tx)) :
    (∀ pre k value post, ops = pre ++ .get k value :: post →
      value = (buffered pre k).getD (snapshot k)) ∧
    tx.readTs = r ∧
    ∀ batch reads, tx.Passes batch reads →
      (batch.NodupKeys ∧ ∀ k value, ⟨k, value⟩ ∈ batch ↔ buffered ops k = some value) ∧
      (reads.Nodup ∧
        ∀ k, k ∈ reads ↔ serializable = true ∧ FromSnapshot ops k ∧ buffered ops k = none) ∧
      (serializable = true → ∀ (s : MemoryStore) c full, (∀ k, k ∈ full ↔ FromSnapshot ops k) →
        s.SameCommit r c batch batch reads full) := by
  have h : Overlays snapshot r serializable ops tx := by
    have h := @Overlays.run r serializable snapshot calls hsnap
    rwa [hrun] at h
  refine ⟨fun pre k value post hops => (hops ▸ h.replays).eq_buffered, h.readTs,
    fun batch reads hpass => ⟨h.mem_batch hpass, ⟨hpass.2.1, h.mem_reads hpass⟩,
      fun hser s c full hfull => s.sameCommit_of_keys r c (fun k => ?_) fun _ => rfl⟩⟩
  rw [List.mem_append, List.mem_append, h.mem_reads hpass, hfull]
  refine or_congr_right' fun hk => ?_
  -- a key that is not in the batch was not written
  have hnone : buffered ops k = none := by
    by_contra hne
    obtain ⟨value, hvalue⟩ := Option.ne_none_iff_exists'.1 hne
    exact hk (List.mem_map.2 ⟨_, ((h.mem_batch hpass).2 k value).2 hvalue, rfl⟩)
  exact ⟨fun hread => hread.2.1, fun hserved => ⟨hser, hserved, hnone⟩⟩

/-- Calls of a serializable transaction on an empty store. -/
def mixedCalls : List (MemoryStore × TxCall) :=
  [(.new, .get [120]), (.new, .put [120] [1]), (.new, .get [120]), (.new, .get [121]),
    (.new, .put [122] [2]), (.new, .delete [122]), (.new, .get [122])]

/-- A key is read, then written, another one written twice, and a third one read only. -/
theorem transaction_overlay_mixed :
    ((Transaction.new 0 true).run mixedCalls).1 =
      [.get [120] none, .write [120] (some [1]), .get [120] (some [1]), .get [121] none,
        .write [122] (some [2]), .write [122] none, .get [122] none] ∧
    MemoryStore.new.SameCommit 0 1 [⟨[120], some [1]⟩, ⟨[122], none⟩]
      [⟨[120], some [1]⟩, ⟨[122], none⟩] [[121]] [[120], [121]] := by
  have hstore : ∀ c ∈ mixedCalls, c.1 = .new := by simp [mixedCalls]
  have hsnap : ∀ c ∈ mixedCalls, ∀ k, c.1.get k 0 = none := fun c hc k => by
    rw [hstore c hc, MemoryStore.get_eq_visibleValue, MemoryStore.chain_new]
    rfl
  obtain ⟨-, -, hcommit⟩ := @transaction_overlay _ _ 0 true _ _ hsnap rfl
  refine ⟨by decide, (hcommit _ _ ⟨by decide, by decide, by decide⟩).2.2 rfl .new 1 _ fun k => ?_⟩
  rw [FromSnapshot, ← readsFresh_iff]
  change k ∈ [[120], [121]] ↔ ReadsFresh k [.get [120] none, .write [120] (some [1]),
    .get [120] (some [1]), .get [121] none, .write [122] (some [2]), .write [122] none,
    .get [122] none]
  simp only [ReadsFresh, List.mem_cons, List.not_mem_nil, or_false]
  grind

end TxnDb
