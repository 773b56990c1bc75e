import TxnDb.Stores.Chains

/-!
# Stores

The stores that are there are stores of chains (`ChainStore`), and so exact: the
one in memory, one map behind a single lock (`BTreeStore`), and one that counts
the calls of the one in memory (`CountingStore`), and collects no garbage.

`FaultyStore` is not one of these: it only shows that a store some of whose calls
fail may be lawful, where one is needed in an example run.

What a step of the database asks of its store is observed (`Called`), so that
the counters count what was observed (`CountingStore.counters_exact`).
-/

namespace TxnDb

open Mvcc Search

variable {k : Key} {r c : ℕ}

/-! ## The store in memory -/

instance : VersionStore MemoryStore where
  get store key readTs := (.ok (store.get key readTs), store)
  tryCommit store readTs commitTs writes reads :=
    match store.tryCommit readTs commitTs writes reads with
    | .ok store' => (.ok (), store')
    | .error e => (.error e, store)
  collectGarbage store lowWatermark :=
    let (store', reclaimed) := store.collectGarbage lowWatermark
    (reclaimed, store')

theorem MemoryStore.chain_collectGarbage {s : MemoryStore} (hasc : Ascending (s.chain k)) (w : ℕ) :
    (s.collectGarbage w).1.chain k = prune w (s.chain k) := by
  rw [chain, shardOf_collectGarbage, lookup_collectGarbage, ← retainChain_getD hasc, chain]
  cases (s.chains (s.shardOf k)).lookup k <;> rfl

theorem MemoryStore.chainStore : ChainStore MemoryStore.chain where
  get _ _ _ hasc := ⟨congrArg Except.ok (get_eq hasc.sorted), rfl⟩
  conflict store r c writes reads key _ hc := by
    simp only [VersionStore.tryCommit, tryCommit_eq, conflict?]
    rw [firstNewer] at hc
    rw [hc]
    exact ⟨rfl, rfl⟩
  commit store r c writes reads _ hc := by
    simp only [VersionStore.tryCommit, tryCommit_eq, conflict?]
    rw [firstNewer] at hc
    rw [hc]
    exact ⟨rfl, store.installRecovered_chain c writes⟩
  collectGarbage _ _ hasc := .inl fun k => chain_collectGarbage (hasc k) _

instance : ExactVersionStore MemoryStore := MemoryStore.chainStore.exact

/-! ## A map behind one lock -/

/-- One map from keys to chains, behind a single lock. -/
structure BTreeStore where
  chains : Chains
  deriving DecidableEq

namespace BTreeStore

/-- The value of the newest version at or below `readTs`. -/
def visible (chain : Option (List Version)) (readTs : ℕ) : Option Value := do
  let chain ← chain
  let above := partitionPoint chain fun v => v.commitTs ≤ readTs
  let idx ← if above < 1 then none else some (above - 1)
  let v ← chain[idx]?
  v.value

/-- The newest version is above `readTs`. -/
def changedSince (chain : Option (List Version)) (readTs : ℕ) : Bool :=
  match chain.bind (·.getLast?) with
  | some v => readTs < v.commitTs
  | none => false

/-- A conflict on the first of the keys changed since `readTs`. -/
def check (store : BTreeStore) (readTs : ℕ) : List Key → Except TxnError Unit
  | [] => .ok ()
  | key :: keys =>
    if changedSince (store.chains.lookup key) readTs then .error (.conflict key.length)
    else store.check readTs keys

/-- Checks the writes, then the reads, and pushes the writes. -/
def tryCommit (store : BTreeStore) (readTs commitTs : ℕ) (writes : List WriteEntry)
    (reads : List Key) : Except TxnError BTreeStore := do
  store.check readTs (writes.map (·.1))
  store.check readTs reads
  return ⟨writes.foldl (fun chains e => chains.push e.1 ⟨commitTs, e.2⟩) store.chains⟩

instance : VersionStore BTreeStore where
  get store key readTs := (.ok (visible (store.chains.lookup key) readTs), store)
  tryCommit store readTs commitTs writes reads :=
    match store.tryCommit readTs commitTs writes reads with
    | .ok store' => (.ok (), store')
    | .error e => (.error e, store)

/-- The chain of a key, empty if it has none. -/
def chain (store : BTreeStore) (k : Key) : List Version := (store.chains.lookup k).getD []

theorem changedSince_lookup (store : BTreeStore) (k : Key) (r : ℕ) :
    changedSince (store.chains.lookup k) r = newerThan (some (store.chain k)) r := by
  rw [chain]
  cases store.chains.lookup k <;> rfl

theorem check_eq (store : BTreeStore) (r : ℕ) (keys : List Key) :
    store.check r keys = match keys.find? fun k => newerThan (some (store.chain k)) r with
      | some k => .error (.conflict k.length)
      | none => .ok () := by
  induction keys with
  | nil => rfl
  | cons k keys ih =>
    rw [check, changedSince_lookup, List.find?_cons]
    cases newerThan (some (store.chain k)) r with
    | true => rfl
    | false => exact ih

theorem tryCommit_eq (store : BTreeStore) (r c : ℕ) (writes : List WriteEntry)
    (reads : List Key) : store.tryCommit r c writes reads =
      match firstNewer store.chain r writes reads with
      | some k => .error (.conflict k.length)
      | none => .ok ⟨writes.foldl (fun chains e => chains.push e.1 ⟨c, e.2⟩) store.chains⟩ := by
  simp only [tryCommit, check_eq, firstNewer, List.find?_append]
  cases (writes.map (·.1)).find? fun k => newerThan (some (store.chain k)) r with
  | some k => rfl
  | none => cases reads.find? fun k => newerThan (some (store.chain k)) r <;> rfl

/-- Every write is pushed on the chain of its key. -/
theorem chain_push (m : Chains) (c : ℕ) (writes : List WriteEntry) (k : Key) :
    chain ⟨writes.foldl (fun chains e => chains.push e.1 ⟨c, e.2⟩) m⟩ k =
      chain ⟨m⟩ k ++ (writes.lookupAll k).map (⟨c, ·⟩) := by
  induction writes generalizing m with
  | nil => exact (List.append_nil _).symm
  | cons e writes ih =>
    obtain ⟨key, value⟩ := e
    rw [List.foldl_cons, ih, chain, chain, Chains.push]
    by_cases hk : k = key
    · subst hk
      rw [AList.lookup_insert, List.lookupAll_cons_eq, List.map_cons, Option.getD_some,
        List.append_assoc]
      rfl
    · rw [AList.lookup_insert_ne hk, List.lookupAll_cons_ne _ _ hk]

theorem chainStore : ChainStore chain where
  get store k r hasc := by
    refine ⟨congrArg Except.ok ?_, rfl⟩
    rw [← MemoryStore.visibleValue_eq hasc.sorted, chain]
    cases store.chains.lookup k <;> rfl
  conflict store r c writes reads key _ hc := by
    simp only [VersionStore.tryCommit, tryCommit_eq, hc, and_self]
  commit store r c writes reads _ hc := by
    simp only [VersionStore.tryCommit, tryCommit_eq, hc, true_and]
    exact chain_push _ c writes
  -- the garbage is kept
  collectGarbage _ _ _ := .inr rfl

instance : ExactVersionStore BTreeStore := chainStore.exact

end BTreeStore

/-! ## A store that counts -/

/-- The store in memory, with the numbers of reads served and of versions applied, as `u64`s. -/
structure CountingStore where
  inner : MemoryStore
  reads : ℕ
  versionsApplied : ℕ
  deriving DecidableEq

namespace CountingStore

/-- The store of the program: empty, with the counters at `0`. -/
def new : CountingStore := ⟨.new, 0, 0⟩

instance : VersionStore CountingStore where
  get store key readTs :=
    let (result, inner) := VersionStore.get store.inner key readTs
    (result, { store with inner, reads := wrap (store.reads + 1) })
  tryCommit store readTs commitTs writes reads :=
    match VersionStore.tryCommit store.inner readTs commitTs writes reads with
    | (.ok (), inner) =>
      (.ok (), { store with
        inner, versionsApplied := wrap (store.versionsApplied + writes.length) })
    -- a conflict applies nothing
    | (.error e, inner) => (.error e, { store with inner })

/-- The chain of a key. -/
def chain (store : CountingStore) (k : Key) : List Version := store.inner.chain k

theorem chainStore : ChainStore chain where
  get store k r hasc := MemoryStore.chainStore.get store.inner k r hasc
  conflict store r c writes reads key hasc hc := by
    have h := MemoryStore.chainStore.conflict store.inner r c writes reads key hasc hc
    cases hcommit : VersionStore.tryCommit store.inner r c writes reads with
    | mk result inner =>
      rw [hcommit] at h
      obtain rfl := h.1
      simp only [VersionStore.tryCommit] at hcommit ⊢
      rw [hcommit]
      exact ⟨rfl, h.2⟩
  commit store r c writes reads hasc hc := by
    have h := MemoryStore.chainStore.commit store.inner r c writes reads hasc hc
    cases hcommit : VersionStore.tryCommit store.inner r c writes reads with
    | mk result inner =>
      rw [hcommit] at h
      obtain rfl := h.1
      simp only [VersionStore.tryCommit] at hcommit ⊢
      rw [hcommit]
      exact ⟨rfl, h.2⟩
  -- the call is not forwarded
  collectGarbage _ _ _ := .inr rfl

instance : ExactVersionStore CountingStore := chainStore.exact

end CountingStore

/-! ## A store that fails -/

/-- The store in memory, behind calls that may fail: `faults` says which of the next ones do.
    There is no such store in the library. -/
structure FaultyStore where
  inner : MemoryStore
  faults : List Bool
  deriving DecidableEq

namespace FaultyStore

instance : VersionStore FaultyStore where
  get store key readTs :=
    if store.faults.headD false then
      (.error (.store "read visible version" "fault"), { store with faults := store.faults.tail })
    else (.ok (store.inner.get key readTs), { store with faults := store.faults.tail })
  tryCommit store readTs commitTs writes reads :=
    if store.faults.headD false then
      (.error (.store "apply batch" "fault"), { store with faults := store.faults.tail })
    else
      let (result, inner) := VersionStore.tryCommit store.inner readTs commitTs writes reads
      (result, ⟨inner, store.faults.tail⟩)

instance : LawfulVersionStore FaultyStore where
  Keeps store S w := KeepsChains store.inner.chain S w
  get_ok {store _ S w r k value} h hr hget := by
    simp only [VersionStore.get] at hget
    split_ifs at hget
    · cases hget
    · exact LawfulVersionStore.get_ok (σ := MemoryStore) h hr
        (Prod.ext (Prod.mk.inj hget).1 rfl)
  keeps_get {store S w r k} h _ := by
    simp only [VersionStore.get]
    split_ifs <;> exact h
  tryCommit_ok {store store' S w r c writes reads} h hr hrc hnew hnd hcommit := by
    simp only [VersionStore.tryCommit] at hcommit
    split_ifs at hcommit
    · cases hcommit
    · obtain ⟨hresult, rfl⟩ := Prod.mk.inj hcommit
      exact LawfulVersionStore.tryCommit_ok (σ := MemoryStore) h hr hrc hnew hnd
        (Prod.ext hresult rfl)
  tryCommit_error {store store' S w r c writes reads e} h hr hcommit := by
    simp only [VersionStore.tryCommit] at hcommit
    split_ifs at hcommit
    · obtain ⟨he, rfl⟩ := Prod.mk.inj hcommit
      exact ⟨h, .inr ⟨_, _, (Except.error.inj he).symm⟩⟩
    · obtain ⟨hresult, rfl⟩ := Prod.mk.inj hcommit
      exact LawfulVersionStore.tryCommit_error (σ := MemoryStore) h hr (Prod.ext hresult rfl)
  keeps_collectGarbage h := h.mono (le_max_left _ _)

end FaultyStore

/-! ## What is asked of the store -/

/-- The store is not called, or called to no effect on its counters. -/
def Observed.Quiet : Observed → Prop
  | .event (.got _ _ _ _ own) => own = true
  | .event (.committed _) | .failed _ _ _ | .collected _ _ => False
  | .event _ => True

/-- What a step asks of the store, which becomes `store'`, from what is observed of it. -/
inductive Called {σ : Type*} [VersionStore σ] (store : σ) : Observed → σ → Prop
  | quiet {o : Observed} (ho : o.Quiet) : Called store o store
  | got {h r : ℕ} {k : Key} {value : Option Value} {store' : σ}
      (hget : VersionStore.get store k r = (.ok value, store')) :
    Called store (.event (.got h r k value false)) store'
  | failed {h r : ℕ} {k : Key} {e : TxnError} {store' : σ}
      (hget : VersionStore.get store k r = (.error e, store')) :
    Called store (.failed h k e) store'
  | committed {a : Attempt} {store' : σ}
      (hcommit : VersionStore.tryCommit store a.readTs a.commitTs a.writes a.reads =
        (.ok (), store')) :
    Called store (.event (.committed a)) store'
  | conflicted {a : Attempt} {e : TxnError} {store' : σ}
      (hcommit : VersionStore.tryCommit store a.readTs a.commitTs a.writes a.reads =
        (.error e, store')) :
    Called store (.event (.conflicted a e)) store'
  | collected {low reclaimed : ℕ} {store' : σ}
      (hcollect : VersionStore.collectGarbage store low = (reclaimed, store')) :
    Called store (.collected low reclaimed) store'

/-- A step calls the store at most once. -/
theorem Backed.Step.called {σ : Type*} [VersionStore σ] {b b' : Backed σ} {o : Observed}
    (hstep : Backed.Step b o b') : Called b.store o b'.store := by
  cases hstep with
  | gotSnapshot _ hget | gotStore _ _ hget => exact .got hget
  | failed _ hget => exact .failed hget
  | committed _ hcommit => exact .committed hcommit
  | conflicted _ hcommit => exact .conflicted hcommit
  | collected _ hcollect => exact .collected hcollect
  | gotOwn => exact .quiet rfl
  | _ => exact .quiet trivial

namespace CountingStore

/-- The number of reads served by the store, `0` or `1`. -/
def readsOf : Observed → ℕ
  | .event (.got _ _ _ _ false) | .failed _ _ _ => 1
  | _ => 0

/-- The number of versions applied. -/
def versionsOf : Observed → ℕ
  | .event (.committed a) => a.writes.length
  | _ => 0

/-- Counting wraps around as the count does. -/
theorem wrap_add {c m : ℕ} (h : c = wrap m) (n : ℕ) : wrap (c + n) = wrap (m + n) :=
  h ▸ Nat.mod_add_mod ..

/-- A call adds to the counters what is observed of it. -/
theorem called {store store' : CountingStore} {o : Observed} (h : Called store o store')
    {m n : ℕ} (hm : store.reads = wrap m) (hn : store.versionsApplied = wrap n) :
    store'.reads = wrap (m + readsOf o) ∧ store'.versionsApplied = wrap (n + versionsOf o) := by
  cases h with
  | quiet ho =>
    have hzero : readsOf o = 0 ∧ versionsOf o = 0 := by
      cases o with
      | event e =>
        cases e with
        | got _ _ _ _ own =>
          obtain rfl : own = true := ho
          exact ⟨rfl, rfl⟩
        | committed => exact ho.elim
        | _ => exact ⟨rfl, rfl⟩
      | _ => exact ho.elim
    rw [hzero.1, hzero.2]
    exact ⟨hm, hn⟩
  | got hget | failed hget =>
    obtain ⟨-, rfl⟩ := Prod.mk.inj hget
    exact ⟨wrap_add hm 1, hn⟩
  | committed hcommit =>
    simp only [VersionStore.tryCommit] at hcommit
    split at hcommit
    · obtain ⟨-, rfl⟩ := Prod.mk.inj hcommit
      exact ⟨hm, wrap_add hn _⟩
    · cases hcommit
  | conflicted hcommit =>
    simp only [VersionStore.tryCommit] at hcommit
    split at hcommit
    · cases hcommit
    · obtain ⟨-, rfl⟩ := Prod.mk.inj hcommit
      exact ⟨hm, hn⟩
  | collected hcollect =>
    obtain ⟨-, rfl⟩ := Prod.mk.inj hcollect
    exact ⟨hm, hn⟩

/-- In every run, the counters are, as `u64`s, the numbers of the reads that were served from
    the store, and of the versions of the transactions that committed. -/
theorem counters_exact {obs : List Observed} {b : Backed CountingStore}
    (hrun : Backed.Run .new obs b) :
    b.store.reads = wrap (obs.map readsOf).sum ∧
      b.store.versionsApplied = wrap (obs.map versionsOf).sum := by
  refine Trace.Run.invariant (motive := fun obs b => b.store.reads = wrap (obs.map readsOf).sum ∧
    b.store.versionsApplied = wrap (obs.map versionsOf).sum) hrun ⟨rfl, rfl⟩ ?_
  rintro obs b o b' - ⟨hreads, hversions⟩ ⟨act, hact⟩
  simp only [List.map_append, List.sum_append, List.map_singleton, List.sum_singleton]
  exact called (Backed.step_inv hact).called hreads hversions

/-- A transaction that writes two keys, and another one that reads them, and a third key. -/
def countingRun : List Action :=
  [.begin .transaction, .put 0 [97] [1], .put 0 [98] [2],
    .commit 0 [⟨[98], some [2]⟩, ⟨[97], some [1]⟩] [], .tryCommit 0, .commitDone 0, .drop 0,
    .begin .transaction, .get 1 [97], .get 1 [98], .get 1 [99]]

def countingObs : List Observed :=
  let a : Attempt := ⟨0, 0, 1, [⟨[98], some [2]⟩, ⟨[97], some [1]⟩], []⟩
  [.event (.began 0 .transaction 0), .event (.wrote 0 [97] (some [1])),
    .event (.wrote 0 [98] (some [2])), .event (.allocated a), .event (.committed a),
    .event (.reported a), .event (.returned 0 (.ok 1)), .event (.began 1 .transaction 1),
    .event (.got 1 1 [97] (some [1]) false), .event (.got 1 1 [98] (some [2]) false),
    .event (.got 1 1 [99] none false)]

theorem exec_countingRun : (Trace.exec Backed.step (Backed.withStore new) countingRun).map
    (Prod.map id fun _ => ()) = some (countingObs, ()) := by
  decide +kernel

theorem counters_exact_counting : ∃ b : Backed CountingStore, Backed.Run .new countingObs b ∧
    b.store.reads = 3 ∧ b.store.versionsApplied = 2 := by
  obtain ⟨b, hrun, -⟩ := Backed.run_of_exec exec_countingRun
  obtain ⟨hreads, hversions⟩ := counters_exact hrun
  exact ⟨b, hrun, hreads.trans (by decide), hversions.trans (by decide)⟩

end CountingStore

end TxnDb
