import TxnDb.OneClient.Calls

/-!
# The database and the map

With no transaction underway, the database is what a map, a clock and a disk say (`Describes`): no
version is above the clock, the last version of each key has its value, and the records of the log
leave what is on the disk (`LeavesMap`). So a transaction sees the map, a commit does to it what
was written, and the log opens on what it leaves.
-/

namespace TxnDb

open Mvcc

/-! ## Transactions -/

variable {b : Book} {inner inner' : Inner} {ops : List (Op Key Value)} {batch : List WriteEntry}
  {reads : List Key} {m : Key → Option Value} {n : ℕ} {M M' : List Attempt} {a : Attempt}
  {store : MemoryStore} {k : Key} {failure : Option String}

/-- The writes are those of the operations. -/
def WritesOf (ops : List (Op Key Value)) (batch : List WriteEntry) : Prop :=
  batch.NodupKeys ∧ ∀ k, buffered ops k = batch.dlookup k

theorem TxCall.ops_append_singleton (m : Key → Option Value) (calls : List TxCall) (c : TxCall) :
    TxCall.ops m (calls ++ [c]) =
      TxCall.ops m calls ++ [c.op (execOps m (TxCall.ops m calls))] := by
  induction calls generalizing m with
  | nil => rfl
  | cons c' calls ih =>
    rw [List.cons_append, TxCall.ops, TxCall.ops, ih]
    rfl

/-- A call on a transaction does what it would do on the map that the transaction sees. -/
theorem Overlays.op_eq {tx : Transaction} {r : ℕ} {serializable : Bool}
    (h : Overlays m r serializable ops tx) (hsnap : ∀ k, store.get k r = m k) (c : TxCall) :
    (tx.call store c).1 = c.op (execOps m ops) := by
  cases c with
  | get key =>
    have hreplays := (h.call hsnap (.get key)).replays
    rw [TxCall.op, (replays_append_get.1 hreplays).2]
    rfl
  | put | delete => rfl

theorem Overlays.run_eq {r : ℕ} (hsnap : ∀ k, store.get k r = m k) (serializable : Bool)
    (calls : List TxCall) : ∃ tx, (Transaction.new r serializable).run (calls.map (store, ·)) =
      (TxCall.ops m calls, tx) ∧ Overlays m r serializable (TxCall.ops m calls) tx := by
  induction calls using List.reverseRecOn with
  | nil => exact ⟨_, rfl, .new⟩
  | append_singleton calls c ih =>
    obtain ⟨tx, hrun, h⟩ := ih
    have hop := h.op_eq hsnap c
    refine ⟨(tx.call store c).2, ?_, ?_⟩
    · rw [Transaction.run] at hrun
      rw [List.map_append, List.map_singleton, Transaction.run, List.foldl_append, hrun,
        TxCall.ops_append_singleton, ← hop]
      rfl
    · rw [TxCall.ops_append_singleton, ← hop]
      exact h.call hsnap c

/-- What a transaction passes to the store is what was written. -/
theorem Overlays.writesOf {tx : Transaction} {r : ℕ} {serializable : Bool}
    (h : Overlays m r serializable ops tx) (hpass : tx.Passes batch reads) :
    WritesOf ops batch := by
  obtain ⟨hnd, hmem⟩ := h.mem_batch hpass
  refine ⟨hnd, fun k => Option.ext fun value => ?_⟩
  rw [← hmem, ← List.mem_dlookup_iff hnd]
  rfl

/-- There is nothing to write iff nothing was written. -/
theorem WritesOf.eq_nil_iff (h : WritesOf ops batch) : batch = [] ↔ ¬ops.any isWrite := by
  rw [List.any_eq_true]
  constructor
  · rintro rfl ⟨op, hop, hw⟩
    cases op with
    | get k v => cases hw
    | write k v => exact buffered_ne_none_of_mem hop (h.2 k)
  · intro hno
    refine List.eq_nil_iff_forall_not_mem.2 fun e he => hno ?_
    have hbuffered : buffered ops e.1 = some e.2 :=
      (h.2 e.1).trans ((List.mem_dlookup_iff h.1).2 he)
    obtain ⟨v, hv⟩ := exists_write_of_buffered hbuffered
    exact ⟨_, hv, rfl⟩

/-! ## What the log leaves -/

/-- The attempts whose records make a log leave the map `m` at the clock `n`. -/
structure LeavesMap (M : List Attempt) (m : Key → Option Value) (n : ℕ) : Prop where
  loggable : ∀ a ∈ M, Loggable a ∧ a.writes.NodupKeys
  nodup : (M.map (·.commitTs)).Nodup
  highest : highest (recovered M) = n
  current : current (recovered M) = m

theorem recovered_append_singleton (hnd : (M.map (·.commitTs)).Nodup)
    (hlt : ∀ b ∈ M, b.commitTs < a.commitTs) :
    recovered (M ++ [a]) = recovered M ++ [replayed a] := by
  have hsorted : (recovered M ++ [replayed a]).Pairwise fun a b => a.commitTs < b.commitTs := by
    refine List.pairwise_append.2 ⟨recovered_sorted hnd, List.pairwise_singleton _ _, ?_⟩
    intro b hb c hc
    obtain ⟨d, hd, rfl⟩ := mem_recovered.1 hb
    rw [List.mem_singleton.1 hc]
    exact hlt d hd
  have hperm : (M.map replayed ++ [replayed a]).Perm (recovered M ++ [replayed a]) :=
    recovered_perm.symm.append_right _
  rw [recovered, List.map_append, List.map_singleton]
  refine List.Perm.eq_of_pairwise (fun a b _ _ hab hba => absurd hab (lt_asymm hba))
    (List.pairwise_lt_insertionSort ?_) hsorted ((List.perm_insertionSort _ _).trans hperm)
  rw [(hperm.map _).nodup_iff, List.Nodup, List.pairwise_map]
  exact hsorted.imp fun h => h.ne

theorem LeavesMap.append (h : LeavesMap M m n) (ha : Loggable a) (hb : WritesOf ops a.writes)
    (hlt : n < a.commitTs) : LeavesMap (M ++ [a]) (execOps m ops) a.commitTs := by
  have hbelow : ∀ b ∈ M, b.commitTs < a.commitTs := fun b hb =>
    (h.highest ▸ le_highest (mem_recovered.2 ⟨b, hb, rfl⟩)).trans_lt hlt
  have hrecovered := recovered_append_singleton h.nodup hbelow
  refine ⟨fun c hc => ?_, ?_, ?_, ?_⟩
  · rcases List.mem_append.1 hc with hc | hc
    · exact h.loggable c hc
    · rw [List.mem_singleton.1 hc]
      exact ⟨ha, hb.1⟩
  · rw [List.map_append, List.map_singleton, ← List.concat_eq_append]
    refine h.nodup.concat fun hmem => ?_
    obtain ⟨b, hb, heq⟩ := List.mem_map.1 hmem
    exact (hbelow b hb).ne heq
  · rw [hrecovered, highest_append_singleton, h.highest]
    exact max_eq_right hlt.le
  · funext k
    rw [hrecovered, current_append_singleton, h.current, execOps_apply, hb.2]
    rfl

/-! ## The database is the map -/

/-- The log leaves what is on the disk. -/
def OnDisk : Option ((Key → Option Value) × ℕ) → Option CommitLog → Prop
  | none, none => True
  | some (m, n), some log => ∃ M, log = ⟨⟨M.map record, []⟩⟩ ∧ LeavesMap M m n
  | _, _ => False

/-- The database, with no transaction underway, is what the book says. -/
structure Describes (b : Book) (inner : Inner) : Prop where
  tracks : inner.oracle.Tracks b.clock fun _ => False
  versions_le : ∀ k, ∀ v ∈ inner.store.chain k, v.commitTs ≤ b.clock
  now : ∀ k, lastValue (inner.store.chain k) = b.now k
  disk : OnDisk b.disk inner.log
  disk_le : ∀ disk ∈ b.disk, disk.2 ≤ b.clock

/-- The database opens on what is left of the log. -/
theorem LeavesMap.reopen (h : LeavesMap M m n) {records : List Record}
    (hperm : records.Perm (M.map record)) : ∃ inner,
      Inner.openLog records = .ok inner ∧ Describes ⟨m, n, some (m, n)⟩ inner := by
  obtain ⟨M', rfl, hMM⟩ : Relation.Comp (· = List.map record ·) List.Perm records M := by
    rw [List.eq_map_comp_perm]
    exact hperm
  have hts := hMM.map Txn.commitTs
  have h' : LeavesMap M' m n := by
    have hrecovered : recovered M' = recovered M := by
      refine List.insertionSort_eq_of_perm ?_ (hMM.map replayed)
      rw [List.map_map]
      exact hts.nodup_iff.2 h.nodup
    exact ⟨fun a ha => h.loggable a (hMM.subset ha), hts.nodup_iff.2 h.nodup,
      hrecovered ▸ h.highest, hrecovered ▸ h.current⟩
  have hchain : ∀ k, (replay (recovered M')).2.chain k = versions (recovered M') k := by
    refine replay_chain fun a ha => ?_
    obtain ⟨b, hb, rfl⟩ := mem_recovered.1 ha
    exact (h'.loggable b hb).2
  refine ⟨_, openLog_records fun a ha => (h'.loggable a ha).1, ?_, fun k v hv => ?_, fun k => ?_,
    ⟨M', rfl, h'⟩, ?_⟩
  · rw [h'.highest]
    have hle : n ≤ 2 ^ 64 - 1 := h'.highest ▸ highest_le fun a ha => by
      obtain ⟨b, hb, rfl⟩ := mem_recovered.1 ha
      exact Nat.le_sub_one_of_lt (h'.loggable b hb).1.1
    exact Oracle.tracks_recovered (Nat.lt_of_le_pred (by decide) hle)
  · rw [hchain] at hv
    obtain ⟨a, ha, -, heq⟩ := mem_versions.1 hv
    rw [← heq, ← h'.highest]
    exact le_highest ha
  · rw [hchain, ← h'.current]
    rfl
  · rintro _ ⟨⟩
    exact le_rfl

theorem LeavesMap.reopen_eq (h : LeavesMap M m n) (inner : Inner) {records : List Record}
    (hperm : records.Perm (M.map record)) : ∃ inner',
      inner.reopen records = (.ok (), inner') ∧ Describes (Book.reopen (m, n)) inner' := by
  obtain ⟨inner', hopen, h'⟩ := h.reopen hperm
  refine ⟨inner', ?_, h'⟩
  rw [Inner.reopen, hopen]

namespace Describes

/-- What is on the disk is in the log. -/
theorem disk_eq (h : Describes b inner) {log : CommitLog} (hlog : inner.log = some log) :
    ∃ m n M, b.disk = some (m, n) ∧ log = ⟨⟨M.map record, []⟩⟩ ∧ LeavesMap M m n ∧
      n ≤ b.clock := by
  have hdisk := h.disk
  rw [hlog] at hdisk
  cases hb : b.disk with
  | none =>
    rw [hb] at hdisk
    exact hdisk.elim
  | some disk =>
    rw [hb] at hdisk
    obtain ⟨M, hM, hleaves⟩ := hdisk
    exact ⟨disk.1, disk.2, M, rfl, hM, hleaves, h.disk_le disk hb⟩

theorem readTs_eq (h : Describes b inner) : inner.readTs = b.clock := h.tracks.readTs_eq fun _ => id

theorem get_eq (h : Describes b inner) (k : Key) : inner.store.get k b.clock = b.now k := by
  rw [MemoryStore.get_eq_lastValue (h.versions_le k), h.now]

/-- Readers that begin and end are not seen. -/
theorem beginReader (h : Describes b inner) : Describes b inner.beginReader.2 :=
  ⟨h.tracks.congr_readers rfl rfl rfl, h.versions_le, h.now, h.disk, h.disk_le⟩

theorem endReader (h : Describes b inner) (r : ℕ) : Describes b (inner.endReader r) :=
  ⟨h.tracks.congr_readers (Oracle.nextTs_endReader _ _) (Oracle.readTs_endReader _ _)
      (Oracle.pending_endReader _ _),
    h.versions_le, h.now, h.disk, h.disk_le⟩

/-- What is written is what is read next. -/
theorem installRecovered (h : Describes b inner) (hb : WritesOf ops batch) (k : Key) :
    (∀ v ∈ (inner.store.installRecovered (b.clock + 1) batch).chain k, v.commitTs ≤ b.clock + 1) ∧
      lastValue ((inner.store.installRecovered (b.clock + 1) batch).chain k) =
        execOps b.now ops k := by
  have hle := h.versions_le k
  rw [execOps_apply, hb.2, ← h.now]
  cases hk : batch.dlookup k with
  | none =>
    rw [MemoryStore.installRecovered_chain_of_not_mem (List.dlookup_eq_none.1 hk)]
    exact ⟨fun v hv => (hle v hv).trans (Nat.le_succ _), rfl⟩
  | some value =>
    rw [MemoryStore.installRecovered_chain_of_mem hb.1 (List.of_mem_dlookup hk)]
    refine ⟨fun v hv => ?_, by rw [lastValue, List.getLast?_concat]; rfl⟩
    rcases List.mem_append.1 hv with hv | hv
    · exact (hle v hv).trans (Nat.le_succ _)
    · rw [List.mem_singleton.1 hv]

/-- A client that is alone is in conflict with nobody. -/
theorem tryCommit (h : Describes b inner) (c : ℕ) (batch : List WriteEntry) (reads : List Key) :
    inner.store.tryCommit b.clock c batch reads =
      .ok (inner.store.installRecovered c batch) := by
  rw [MemoryStore.tryCommit_eq, MemoryStore.conflict?_eq_none h.versions_le]

theorem commitWrites (h : Describes b inner) (hlt : b.clock + 1 < 2 ^ 64) (hb : WritesOf ops batch)
    (hfit : b.disk.isSome → Fits batch) (reads : List Key) (failure : Option String) :
    ∃ inner', inner.commitWrites 0 b.clock batch reads failure =
      ((b.commit ops failure).1, inner') ∧ Describes (b.commit ops failure).2 inner' := by
  obtain ⟨hts, halloc⟩ := h.tracks.alloc hlt
  have hdone : Oracle.Tracks _ (b.clock + 1) fun _ => False :=
    (halloc.done (.inr rfl)).2.congr fun t => ⟨False.elim, fun ⟨ht, hne⟩ => ht.elim id hne⟩
  have htry := h.tryCommit (b.clock + 1) batch reads
  have hinstall := h.installRecovered hb
  obtain ⟨now, clock, disk⟩ := b
  simp only at hts htry hinstall hdone hlt hfit ⊢
  simp only [Inner.commitWrites, Inner.allocCommitTs, hts, htry]
  cases hlog : inner.log with
  | none =>
    have hnone : disk = none := by
      have hdisk := h.disk
      rw [hlog] at hdisk
      cases disk with
      | none => rfl
      | some d => exact hdisk.elim
    subst hnone
    refine ⟨_, rfl, hdone, fun k => (hinstall k).1, fun k => (hinstall k).2, trivial, ?_⟩
    intro disk hdisk
    cases hdisk
  | some log =>
    obtain ⟨m, n, M, rfl, rfl, hM, hle⟩ := h.disk_eq hlog
    cases failure with
    | none =>
      have happend := hM.append (a := ⟨0, clock, clock + 1, batch, reads⟩) ⟨hlt, hfit rfl⟩ hb
        (Nat.lt_succ_of_le hle)
      refine ⟨_, rfl, hdone, fun k => (hinstall k).1, fun k => (hinstall k).2, ⟨_, ?_, happend⟩, ?_⟩
      · simp only [CommitLog.append, CommitLog.synced, List.nil_append, List.erase_cons_head,
          List.map_append]
        rfl
      · rintro _ ⟨⟩
        exact le_rfl
    | some detail =>
      refine ⟨_, rfl, hdone, fun k => (hinstall k).1, fun k => (hinstall k).2, ⟨M, ?_, hM⟩, ?_⟩
      · simp only [CommitLog.append, CommitLog.failed, List.nil_append, List.erase_cons_head]
      · rintro _ ⟨⟩
        exact hle.trans (Nat.le_succ _)

/-- A garbage collection is not seen. -/
theorem collectGarbage (h : Describes b inner) : Describes b inner.collectGarbage.1 := by
  have hchain : ∀ k, inner.collectGarbage.1.store.chain k ⊆ inner.store.chain k ∧
      lastValue (inner.collectGarbage.1.store.chain k) = lastValue (inner.store.chain k) := by
    intro k
    change (MemoryStore.collectGarbage _ _).1.chain k ⊆ _ ∧
      lastValue ((MemoryStore.collectGarbage _ _).1.chain k) = _
    rw [MemoryStore.chain, MemoryStore.shardOf_collectGarbage, MemoryStore.lookup_collectGarbage,
      MemoryStore.chain]
    cases (inner.store.chains (inner.store.shardOf k)).lookup k with
    | none => exact ⟨List.Subset.refl _, rfl⟩
    | some c => exact retainChain_subset _ c
  exact ⟨h.tracks, fun k v hv => h.versions_le k v ((hchain k).1 hv),
    fun k => (hchain k).2.trans (h.now k), h.disk, h.disk_le⟩

/-- A transaction sees the map. -/
theorem transaction (h : Describes b inner) (serializable : Bool) (calls : List TxCall) :
    ∃ tx, inner.transaction serializable calls = ((TxCall.ops b.now calls, tx),
      inner.beginReader.2) ∧ Overlays b.now b.clock serializable (TxCall.ops b.now calls) tx := by
  obtain ⟨tx, hrun, hover⟩ := Overlays.run_eq h.get_eq serializable calls
  refine ⟨tx, ?_, hover⟩
  have hread : inner.beginReader.1 = b.clock := h.readTs_eq
  simp only [Inner.transaction, hread]
  exact Prod.ext hrun rfl

/-- The loops of `put` and `delete` return from their first round. -/
theorem retry (h : Describes b inner) (hlt : b.clock + 1 < 2 ^ 64) (key : Key) (v : Option Value)
    (hfit : b.disk.isSome → Fits [⟨key, v⟩]) (failure : Option String) (fuel : ℕ) :
    ∃ inner', inner.retry 0 (fun tx => { tx with writes := tx.writes.insert key v }) failure
      (fuel + 1) = some ((b.commit [.write key v] failure).1, inner') ∧
        Describes (b.commit [.write key v] failure).2 inner' := by
  have hwrites : WritesOf [.write key v] [⟨key, v⟩] := by
    refine ⟨List.nodupKeys_singleton _, fun k => ?_⟩
    change (if key = k then some v else none) = _
    by_cases hk : key = k
    · rw [if_pos hk, ← hk, List.dlookup_cons_eq]
    · rw [if_neg hk, List.dlookup_cons_ne _ _ (Ne.symm hk), List.dlookup_nil]
  obtain ⟨inner', hcommit, h'⟩ := h.beginReader.commitWrites hlt hwrites hfit [] failure
  refine ⟨inner'.endReader b.clock, ?_, h'.endReader _⟩
  have hread : inner.beginReader.1 = b.clock := h.readTs_eq
  have hentries : ((∅ : AList fun _ : Key => Option Value).insert key v).entries = [⟨key, v⟩] := rfl
  simp only [Inner.retry, hread, Transaction.new, hentries, hcommit]
  rcases b.commit_cases [.write key v] failure with hok | ⟨detail, herr⟩
  · rw [hok]
  · rw [herr]
    rfl

end Describes

end TxnDb
