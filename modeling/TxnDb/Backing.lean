import TxnDb.Contract
import TxnDb.System

/-!
# Databases over any store

The store of a database is a parameter: anything that keeps versions
(`VersionStore`), and may fail. A store is lawful (`LawfulVersionStore`) if it
keeps the sets of versions that were applied, but for those that no reader at or
above a low watermark can observe:

* a read that returns gives the newest version at or below its timestamp;
* a commit that returns without an error was not in conflict, and adds its
  versions; one that returns a conflict was in conflict; and one that returns an
  error has applied nothing;
* garbage collection raises the low watermark.

Nothing is asked of when a store fails, and a call may change the store whatever
it returns. The system of a database over a store and its clients (`Backed`)
takes the actions of the system in memory, but for those of a log, and is
observed as the same events, and as the reads that failed and the garbage that
was collected (`Observed`).
-/

namespace TxnDb

open Mvcc

/-- A store of versions, as the database calls it. -/
class VersionStore (σ : Type*) where
  /-- The value of `key` visible at `readTs`. -/
  get (store : σ) (key : Key) (readTs : ℕ) : Except TxnError (Option Value) × σ
  /-- Validates a transaction and, if it does not conflict, applies its writes. -/
  tryCommit (store : σ) (readTs commitTs : ℕ) (writes : List WriteEntry) (reads : List Key) :
    Except TxnError Unit × σ
  /-- Reclaims versions that no reader at or above `lowWatermark` can observe, and counts
      them; a store need not do it. -/
  collectGarbage (store : σ) (lowWatermark : ℕ) : ℕ × σ := (0, store)

/-- The versions, with those of a commit. -/
def VersionSets.commit (S : VersionSets) (commitTs : ℕ) (writes : List WriteEntry) : VersionSets :=
  fun k => S k ∪ {v | v.commitTs = commitTs ∧ ⟨k, v.value⟩ ∈ writes}

/-- The versions of a chain in ascending order give what is visible in it. -/
theorem VersionSets.reads_iff {S : VersionSets} {k : Key} {full : List Version} {r : ℕ}
    {value : Option Value} (hmem : ∀ v, v ∈ S k ↔ v ∈ full) (hasc : Ascending full) :
    S.Reads k r value ↔ visible full r = value := by
  simp only [VersionSets.Reads, hmem]
  constructor
  · rintro (⟨v, hv, hr, hmax, rfl⟩ | ⟨hnone, rfl⟩)
    · exact hasc.visible_eq hv hr hmax
    · rw [visible, upTo_eq_nil hnone]
      rfl
  · rintro rfl
    rcases hasc.visible_cases r with ⟨v, hv, hr, hmax, heq⟩ | ⟨hnone, heq⟩
    · exact .inl ⟨v, hv, hr, hmax, heq⟩
    · exact .inr ⟨hnone, heq⟩

/-- What a store must uphold. -/
class LawfulVersionStore (σ : Type*) [VersionStore σ] where
  /-- The store keeps the versions `S`, but for some that no reader at or above `w` can observe. -/
  Keeps : σ → VersionSets → ℕ → Prop
  get_ok {store store' : σ} {S : VersionSets} {w r : ℕ} {k : Key} {value : Option Value} :
    Keeps store S w → w ≤ r → VersionStore.get store k r = (.ok value, store') →
      S.Reads k r value
  keeps_get {store : σ} {S : VersionSets} {w r : ℕ} {k : Key} :
    Keeps store S w → w ≤ r → Keeps (VersionStore.get store k r).2 S w
  /-- The timestamp is a new one, above the snapshot. -/
  tryCommit_ok {store store' : σ} {S : VersionSets} {w r c : ℕ} {writes : List WriteEntry}
      {reads : List Key} :
    Keeps store S w → w ≤ r → r < c → (∀ k, ∀ v ∈ S k, v.commitTs ≠ c) → writes.NodupKeys →
      VersionStore.tryCommit store r c writes reads = (.ok (), store') →
        ¬S.Conflicts r writes reads ∧ Keeps store' (S.commit c writes) w
  tryCommit_error {store store' : σ} {S : VersionSets} {w r c : ℕ} {writes : List WriteEntry}
      {reads : List Key} {e : TxnError} :
    Keeps store S w → w ≤ r → VersionStore.tryCommit store r c writes reads = (.error e, store') →
      Keeps store' S w ∧
        ((∃ k, (k ∈ writes.keys ∨ k ∈ reads) ∧ (∃ v ∈ S k, r < v.commitTs) ∧
            e = .conflict k.length) ∨
          ∃ context detail, e = .store context detail)
  keeps_collectGarbage {store : σ} {S : VersionSets} {w low : ℕ} :
    Keeps store S w → Keeps (VersionStore.collectGarbage store low).2 S (max w low)

/-- The value of `key` as the transaction sees it, from a store whose reads may fail: the
    key is recorded only if its read returns. -/
def Transaction.getFrom {σ : Type*} [VersionStore σ] (tx : Transaction) (store : σ) (key : Key) :
    Except TxnError (Option Value × Transaction) × σ :=
  match tx.writes.lookup key with
  | some pending => (.ok (pending, tx), store)
  | none =>
    match VersionStore.get store key tx.readTs with
    | (.ok value, store) => (.ok (value, { tx with reads := tx.reads.map (insert key) }), store)
    | (.error e, store) => (.error e, store)

/-- A database over a store, and its clients. -/
structure Backed (σ : Type*) where
  store : σ
  oracle : Oracle
  handles : List Handle
  /-- The low watermarks of the garbage collections that have not called the store. -/
  sweeps : List ℕ

/-- What is observed of a step. -/
inductive Observed
  | event (e : Event)
  /-- The store failed a read through `h`. -/
  | failed (h : ℕ) (key : Key) (e : TxnError)
  /-- The store was called to collect the garbage below `lowWatermark`. -/
  | collected (lowWatermark reclaimed : ℕ)
  deriving DecidableEq

/-- What was observed, as in memory: without the reads that failed, and the garbage. -/
def Observed.event? : Observed → Option Event
  | .event e => some e
  | _ => none

/-- The trace, without the reads that failed, and the garbage. -/
def events (obs : List Observed) : List Event := obs.filterMap Observed.event?

namespace Backed

variable {σ : Type*}

/-- A new database over `store`, with no handle. -/
def withStore (store : σ) : Backed σ := ⟨store, .new, [], []⟩

/-- The handle named `h`. -/
def handle (b : Backed σ) (h : ℕ) : Handle := b.handles.getD h .closed

/-- The handle named `h` changes, and the oracle with it. -/
def set (b : Backed σ) (h : ℕ) (x : Handle) (oracle : Oracle) : Backed σ :=
  { b with handles := b.handles.set h x, oracle }

/-- A step of the system: what the action does, if it is possible. -/
def step [VersionStore σ] (b : Backed σ) : Action → Option (Backed σ × Observed)
  | .begin kind =>
    let (readTs, oracle) := b.oracle.beginReader
    some ({ b with handles := b.handles ++ [.begin readTs kind], oracle },
      .event (.began b.handles.length kind readTs))
  | .get h key =>
    match b.handle h with
    | .reading readTs =>
      match VersionStore.get b.store key readTs with
      | (.ok value, store) => some ({ b with store }, .event (.got h readTs key value false))
      | (.error e, store) => some ({ b with store }, .failed h key e)
    | .active tx =>
      match tx.getFrom b.store key with
      | (.ok (value, tx'), store) =>
        some ({ b.set h (.active tx') b.oracle with store },
          .event (.got h tx.readTs key value (tx.writes.lookup key).isSome))
      | (.error e, store) => some ({ b with store }, .failed h key e)
    | _ => none
  | .put h key value =>
    match b.handle h with
    | .active tx =>
      some (b.set h (.active (tx.put key value)) b.oracle, .event (.wrote h key (some value)))
    | _ => none
  | .delete h key =>
    match b.handle h with
    | .active tx => some (b.set h (.active (tx.delete key)) b.oracle, .event (.wrote h key none))
    | _ => none
  | .commit h batch reads =>
    match b.handle h with
    | .active tx =>
      if batch.Perm tx.writes.entries ∧ reads.Nodup ∧ reads.toFinset = tx.commitReads then
        if batch = [] then
          some (b.set h (.finished tx.readTs (.ok tx.readTs)) b.oracle,
            .event (.readOnly h tx.readTs))
        else
          let (commitTs, oracle) := b.oracle.allocCommitTs
          let a : Attempt := ⟨h, tx.readTs, commitTs, batch, reads⟩
          some (b.set h (.committing a .allocated) oracle, .event (.allocated a))
      else none
    | _ => none
  | .tryCommit h =>
    match b.handle h with
    | .committing a .allocated =>
      match VersionStore.tryCommit b.store a.readTs a.commitTs a.writes a.reads with
      | (.ok (), store) =>
        some ({ b.set h (.committing a (.decided (.ok a.commitTs))) b.oracle with store },
          .event (.committed a))
      | (.error e, store) =>
        some ({ b.set h (.committing a (.decided (.error e))) b.oracle with store },
          .event (.conflicted a e))
    | _ => none
  | .commitDone h =>
    match b.handle h with
    | .committing a (.decided result) =>
      some (b.set h (.finished a.readTs result) (b.oracle.commitDone a.commitTs),
        .event (.reported a))
    | _ => none
  | .drop h =>
    match b.handle h with
    | .reading readTs => some (b.set h .closed (b.oracle.endReader readTs), .event (.dropped h))
    | .active tx => some (b.set h .closed (b.oracle.endReader tx.readTs), .event (.dropped h))
    | .finished readTs result =>
      some (b.set h .closed (b.oracle.endReader readTs), .event (.returned h result))
    | _ => none
  | .collectGarbage =>
    let low := b.oracle.lowWatermark
    some ({ b with sweeps := b.sweeps ++ [low] }, .event (.swept low))
  -- the store is called, at any later time
  | .prune g =>
    match b.sweeps[g]? with
    | some low =>
      let (reclaimed, store) := VersionStore.collectGarbage b.store low
      some ({ b with store, sweeps := b.sweeps.eraseIdx g }, .collected low reclaimed)
    | none => none
  -- only a database over the store in memory has a log
  | .append _ | .appended _ _ | .crash _ _ => none

/-- A step of the system: what is observed of it, and what it does. -/
inductive Step [VersionStore σ] (b : Backed σ) : Observed → Backed σ → Prop
  | began (kind : Kind) :
    Step b (.event (.began b.handles.length kind b.oracle.readTs))
      { b with
        handles := b.handles ++ [.begin b.oracle.readTs kind]
        oracle := b.oracle.beginReader.2 }
  | gotSnapshot {h r : ℕ} {k : Key} {value : Option Value} {store : σ}
      (hh : b.handle h = .reading r) (hget : VersionStore.get b.store k r = (.ok value, store)) :
    Step b (.event (.got h r k value false)) { b with store }
  | gotStore {h : ℕ} {tx : Transaction} {k : Key} {value : Option Value} {store : σ}
      (hh : b.handle h = .active tx) (hk : tx.writes.lookup k = none)
      (hget : VersionStore.get b.store k tx.readTs = (.ok value, store)) :
    Step b (.event (.got h tx.readTs k value false))
      { b.set h (.active { tx with reads := tx.reads.map (insert k) }) b.oracle with store }
  | gotOwn {h : ℕ} {tx : Transaction} {k : Key} {v : Option Value} (hh : b.handle h = .active tx)
      (hk : tx.writes.lookup k = some v) :
    Step b (.event (.got h tx.readTs k v true)) (b.set h (.active tx) b.oracle)
  | failed {h r : ℕ} {k : Key} {e : TxnError} {store : σ} (hh : (b.handle h).readTs = some r)
      (hget : VersionStore.get b.store k r = (.error e, store)) :
    Step b (.failed h k e) { b with store }
  | wrote {h : ℕ} {tx : Transaction} {k : Key} {v : Option Value} (hh : b.handle h = .active tx) :
    Step b (.event (.wrote h k v))
      (b.set h (.active { tx with writes := tx.writes.insert k v }) b.oracle)
  | readOnly {h : ℕ} {tx : Transaction} (hh : b.handle h = .active tx)
      (hw : tx.writes.entries = []) :
    Step b (.event (.readOnly h tx.readTs))
      (b.set h (.finished tx.readTs (.ok tx.readTs)) b.oracle)
  | allocated {h : ℕ} {tx : Transaction} {a : Attempt} (hh : b.handle h = .active tx)
      (hid : a.id = h) (hr : a.readTs = tx.readTs) (hc : a.commitTs = b.oracle.nextTs)
      (hw : a.writes.Perm tx.writes.entries) (hne : a.writes ≠ [])
      (hreads : a.reads.toFinset = tx.commitReads) :
    Step b (.event (.allocated a)) (b.set h (.committing a .allocated) b.oracle.allocCommitTs.2)
  | committed {h : ℕ} {a : Attempt} {store : σ} (hh : b.handle h = .committing a .allocated)
      (hcommit : VersionStore.tryCommit b.store a.readTs a.commitTs a.writes a.reads =
        (.ok (), store)) :
    Step b (.event (.committed a))
      { b.set h (.committing a (.decided (.ok a.commitTs))) b.oracle with store }
  | conflicted {h : ℕ} {a : Attempt} {e : TxnError} {store : σ}
      (hh : b.handle h = .committing a .allocated)
      (hcommit : VersionStore.tryCommit b.store a.readTs a.commitTs a.writes a.reads =
        (.error e, store)) :
    Step b (.event (.conflicted a e))
      { b.set h (.committing a (.decided (.error e))) b.oracle with store }
  | reported {h : ℕ} {a : Attempt} {result : Except TxnError ℕ}
      (hh : b.handle h = .committing a (.decided result)) :
    Step b (.event (.reported a))
      (b.set h (.finished a.readTs result) (b.oracle.commitDone a.commitTs))
  | returned {h r : ℕ} {result : Except TxnError ℕ} (hh : b.handle h = .finished r result) :
    Step b (.event (.returned h result)) (b.set h .closed (b.oracle.endReader r))
  | droppedSnapshot {h r : ℕ} (hh : b.handle h = .reading r) :
    Step b (.event (.dropped h)) (b.set h .closed (b.oracle.endReader r))
  | droppedTransaction {h : ℕ} {tx : Transaction} (hh : b.handle h = .active tx) :
    Step b (.event (.dropped h)) (b.set h .closed (b.oracle.endReader tx.readTs))
  | swept :
    Step b (.event (.swept b.oracle.lowWatermark))
      { b with sweeps := b.sweeps ++ [b.oracle.lowWatermark] }
  | collected {g low reclaimed : ℕ} {store : σ} (hg : b.sweeps[g]? = some low)
      (hcollect : VersionStore.collectGarbage b.store low = (reclaimed, store)) :
    Step b (.collected low reclaimed) { b with store, sweeps := b.sweeps.eraseIdx g }

variable [VersionStore σ] {b b' : Backed σ} {o : Observed}

/-- A read is served by the transaction, or by the store, which may fail. -/
theorem step_get_inv {h : ℕ} {key : Key} (hstep : b.step (.get h key) = some (b', o)) :
    Step b o b' := by
  simp only [step] at hstep
  split at hstep
  · next hh =>
    split at hstep
    · next hget =>
      obtain ⟨rfl, rfl⟩ := Prod.mk.inj (Option.some.inj hstep)
      exact .gotSnapshot hh hget
    · next hget =>
      obtain ⟨rfl, rfl⟩ := Prod.mk.inj (Option.some.inj hstep)
      exact .failed (congrArg Handle.readTs hh) hget
  · next tx hh =>
    cases hk : tx.writes.lookup key with
    | some pending =>
      simp only [Transaction.getFrom, hk] at hstep
      obtain ⟨rfl, rfl⟩ := Prod.mk.inj (Option.some.inj hstep)
      exact .gotOwn hh hk
    | none =>
      rcases hget : VersionStore.get b.store key tx.readTs with ⟨e | value, store⟩
      · simp only [Transaction.getFrom, hk, hget] at hstep
        obtain ⟨rfl, rfl⟩ := Prod.mk.inj (Option.some.inj hstep)
        exact .failed (congrArg Handle.readTs hh) hget
      · simp only [Transaction.getFrom, hk, hget] at hstep
        obtain ⟨rfl, rfl⟩ := Prod.mk.inj (Option.some.inj hstep)
        exact .gotStore hh hk hget
  · cases hstep

/-- A transaction without writes finishes, and one with writes is given a timestamp. -/
theorem step_commit_inv {h : ℕ} {batch : List WriteEntry} {reads : List Key}
    (hstep : b.step (.commit h batch reads) = some (b', o)) : Step b o b' := by
  simp only [step] at hstep
  split at hstep
  · next tx hh =>
    split_ifs at hstep with hcond hne
    · obtain ⟨rfl, rfl⟩ := Prod.mk.inj (Option.some.inj hstep)
      exact .readOnly hh (hne ▸ hcond.1).nil_eq.symm
    · obtain ⟨rfl, rfl⟩ := Prod.mk.inj (Option.some.inj hstep)
      exact .allocated hh rfl rfl rfl hcond.1 hne hcond.2.2
  · cases hstep

/-- The store decides a commit. -/
theorem step_tryCommit_inv {h : ℕ} (hstep : b.step (.tryCommit h) = some (b', o)) :
    Step b o b' := by
  simp only [step] at hstep
  split at hstep
  · next hh =>
    split at hstep
    · next hcommit =>
      obtain ⟨rfl, rfl⟩ := Prod.mk.inj (Option.some.inj hstep)
      exact .committed hh hcommit
    · next hcommit =>
      obtain ⟨rfl, rfl⟩ := Prod.mk.inj (Option.some.inj hstep)
      exact .conflicted hh hcommit
  · cases hstep

/-- A handle that is dropped is no longer a reader. -/
theorem step_drop_inv {h : ℕ} (hstep : b.step (.drop h) = some (b', o)) : Step b o b' := by
  simp only [step] at hstep
  split at hstep
  · next hh =>
    obtain ⟨rfl, rfl⟩ := Prod.mk.inj (Option.some.inj hstep)
    exact .droppedSnapshot hh
  · next hh =>
    obtain ⟨rfl, rfl⟩ := Prod.mk.inj (Option.some.inj hstep)
    exact .droppedTransaction hh
  · next hh =>
    obtain ⟨rfl, rfl⟩ := Prod.mk.inj (Option.some.inj hstep)
    exact .returned hh
  · cases hstep

/-- What is observed of a step is what it does. -/
theorem step_inv {act : Action} (hstep : b.step act = some (b', o)) : Step b o b' := by
  cases act with
  | begin kind =>
    obtain ⟨rfl, rfl⟩ := Prod.mk.inj (Option.some.inj hstep)
    exact .began kind
  | get h key => exact step_get_inv hstep
  | put h key value | delete h key =>
    simp only [step] at hstep
    split at hstep
    · next hh =>
      obtain ⟨rfl, rfl⟩ := Prod.mk.inj (Option.some.inj hstep)
      exact .wrote hh
    · cases hstep
  | commit h batch reads => exact step_commit_inv hstep
  | tryCommit h => exact step_tryCommit_inv hstep
  | commitDone h =>
    simp only [step] at hstep
    split at hstep
    · next hh =>
      obtain ⟨rfl, rfl⟩ := Prod.mk.inj (Option.some.inj hstep)
      exact .reported hh
    · cases hstep
  | drop h => exact step_drop_inv hstep
  | collectGarbage =>
    obtain ⟨rfl, rfl⟩ := Prod.mk.inj (Option.some.inj hstep)
    exact .swept
  | prune g =>
    simp only [step] at hstep
    split at hstep
    · next hg =>
      obtain ⟨rfl, rfl⟩ := Prod.mk.inj (Option.some.inj hstep)
      exact .collected hg rfl
    · cases hstep
  | append h | appended h failure | crash survivors log => cases hstep

/-- The runs of a database over `store`. -/
abbrev Run (store : σ) (obs : List Observed) (b : Backed σ) : Prop :=
  Trace.Run step (withStore store) obs b

/-- Taking actions in turn is a run over the store, which leads to the state computed. -/
theorem run_of_exec {store : σ} {obs : List Observed} {α : Type*}
    {as : List Action} {f : Backed σ → α} {x : α}
    (h : (Trace.exec step (withStore store) as).map (Prod.map id f) = some (obs, x)) :
    ∃ b, Run store obs b ∧ f b = x := by
  obtain ⟨⟨obs', b⟩, hexec, heq⟩ := Option.map_eq_some_iff.1 h
  obtain ⟨rfl, rfl⟩ := Prod.mk.inj heq
  exact ⟨b, Trace.run_of_exec hexec, rfl⟩

end Backed

end TxnDb
