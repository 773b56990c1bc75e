import TxnDb.Backed

/-!
# Stores that cannot be told apart

A database over an exact store takes the steps of the one in memory, whatever
the store is: what a read or a commit returns is determined by the history
(`Alike.agrees`). So the traces over an exact store are those in memory, but for
the collection of garbage, which is seen nowhere else (`Backed.traces_iff`), and
what is proved of every run in memory holds over any such store.
-/

namespace TxnDb

open Mvcc

section Exact

variable {σ : Type*} [VersionStore σ] [ExactVersionStore σ] {tr : List Event} {t : Sys}
  {b : Backed σ} {a : Attempt} {h r : ℕ}

/-- A read from an exact store gives what the history shows. -/
theorem Mirrors.get_exact (hm : Mirrors tr t b) (hsees : t.Sees r) (k : Key) :
    (VersionStore.get b.store k r).1 = .ok (snapshot (history tr) r k) := by
  obtain ⟨w, hw, hkeeps⟩ := hm.keeps
  obtain ⟨value, hvalue⟩ := ExactVersionStore.get_exact (k := k) hkeeps (hsees w hw)
  rw [hvalue, hm.get_eq hsees (Prod.ext hvalue rfl), hm.toInv.get_eq hsees]

/-- A commit to an exact store comes to what the history says. -/
theorem Mirrors.tryCommit_exact (hm : Mirrors tr t b)
    (hh : t.handle h = .committing a .allocated) :
    (VersionStore.tryCommit b.store a.readTs a.commitTs a.writes a.reads).1 =
      (historyVersions tr).validation a.readTs a.writes a.reads := by
  obtain ⟨w, hw, hkeeps⟩ := hm.keeps
  exact ExactVersionStore.tryCommit_exact hkeeps (hw.2 h a.readTs (congrArg Handle.readTs hh))

/-- A commit to the store in memory comes to what the history says. -/
theorem Reached.tryCommit_eq (hr : Reached tr t) (hh : t.handle h = .committing a .allocated) :
    t.inner.store.tryCommit a.readTs a.commitTs a.writes a.reads =
      match (historyVersions tr).validation a.readTs a.writes a.reads with
      | .ok () => .ok (t.inner.store.installRecovered a.commitTs a.writes)
      | .error e => .error e := by
  classical
  have hsees : t.Sees a.readTs := Sys.sees_of_readTs (congrArg Handle.readTs hh)
  have hconf : t.inner.store.conflict? a.readTs a.writes a.reads =
      (historyVersions tr).firstConflict a.readTs a.writes a.reads := by
    refine congrArg (List.find? · _) (funext fun k => ?_)
    rw [Bool.eq_iff_iff, decide_eq_true_eq, hr.newerThan_iff hsees]
    exact newer_versions.symm
  rw [MemoryStore.tryCommit_eq, hconf, VersionSets.validation]
  cases (historyVersions tr).firstConflict a.readTs a.writes a.reads <;> rfl

end Exact

/-! ## The same runs -/

section Alike

variable {σ : Type*} {t : Sys} {b : Backed σ} {h : ℕ}

/-- A shard is pruned. -/
def Event.prunes : Event → Bool
  | .pruned _ _ => true
  | _ => false

/-- The trace, without the prunes. -/
def withoutPrunes (tr : List Event) : List Event := tr.filter fun e => !e.prunes

/-- The prunes change nothing of what is committed, and hand out no timestamp. -/
theorem history_withoutPrunes (tr : List Event) : history (withoutPrunes tr) = history tr ∧
    allocations (withoutPrunes tr) = allocations tr := by
  induction tr using List.reverseRecOn with
  | nil => exact ⟨rfl, rfl⟩
  | append_singleton tr e ih =>
    rw [withoutPrunes, List.filter_append, history_append_singleton, ← ih.1]
    simp only [allocations_append, ← ih.2]
    cases e with
    | pruned => simp [withoutPrunes, Event.prunes, Event.extend, allocations, Event.allocates]
    | _ => exact ⟨history_append_singleton, rfl⟩

/-- The database in memory, and the one over a store, are at the same point. -/
structure Alike (t : Sys) (b : Backed σ) : Prop where
  handles : t.handles = b.handles
  oracle : t.inner.oracle = b.oracle
  log : t.inner.log = none

namespace Alike

theorem handle_eq (hb : Alike t b) (h : ℕ) : t.handle h = b.handle h := by
  rw [Sys.handle, hb.handles]
  rfl

/-- A handle changes in both. -/
theorem set (hb : Alike t b) (h : ℕ) (x : Handle) : t.handles.set h x = b.handles.set h x :=
  congrArg (List.set · h x) hb.handles

/-- The collection of garbage changes neither the handles nor the oracle. -/
theorem pruned {g : ℕ} {t' : Sys} {e : Event} (hb : Alike t b)
    (hstep : t.step (.prune g) = some (t', e)) : e.prunes = true ∧ Alike t' b := by
  simp only [Sys.step] at hstep
  split at hstep
  · split_ifs at hstep
    obtain ⟨rfl, rfl⟩ := Prod.mk.inj (Option.some.inj hstep)
    exact ⟨rfl, hb.handles, hb.oracle, hb.log⟩
  · cases hstep

/-- Without a log, the actions of a log are impossible. -/
theorem step_eq_none (hb : Alike t b) : (∀ h, t.step (.append h) = none) ∧
    (∀ h failure, t.step (.appended h failure) = none) ∧
    ∀ survivors log, t.step (.crash survivors log) = none := by
  refine ⟨fun h => ?_, fun h failure => ?_, fun survivors log => ?_⟩ <;>
    simp only [Sys.step, hb.log]
  all_goals split <;> rename_i heq <;> first | rfl | cases heq

variable [VersionStore σ]

theorem collected {g : ℕ} {b' : Backed σ} {o : Observed} (hb : Alike t b)
    (hstep : b.step (.prune g) = some (b', o)) : o.event? = none ∧ Alike t b' := by
  simp only [Backed.step] at hstep
  split at hstep
  · obtain ⟨rfl, rfl⟩ := Prod.mk.inj (Option.some.inj hstep)
    exact ⟨rfl, hb.handles, hb.oracle, hb.log⟩
  · cases hstep

/-- The action is possible neither in memory nor over the store, or does the same in both. -/
def Agrees (t : Sys) (b : Backed σ) (act : Action) : Prop :=
  (t.step act = none ∧ b.step act = none) ∨
    ∃ t' b' e, t.step act = some (t', e) ∧ b.step act = some (b', .event e) ∧
      e.prunes = false ∧ Alike t' b'

theorem agrees_begin (hb : Alike t b) (kind : Kind) : Agrees t b (.begin kind) := by
  simp only [Agrees, Sys.step, Backed.step, Inner.beginReader, hb.oracle, hb.handles]
  exact .inr ⟨_, _, _, rfl, rfl, rfl, congrArg (· ++ _) hb.handles, rfl, hb.log⟩

/-- A read does the same in both, if the stores return the same. -/
theorem agrees_get (hb : Alike t b) {key : Key}
    (hget : ∀ {r}, (b.handle h).readTs = some r → ∃ store,
      VersionStore.get b.store key r = (.ok (t.inner.store.get key r), store)) :
    Agrees t b (.get h key) := by
  simp only [Agrees, Sys.step, Backed.step, hb.handle_eq]
  cases hh : b.handle h with
  | reading readTs =>
    obtain ⟨store, hstore⟩ := hget (congrArg Handle.readTs hh)
    simp only [hstore]
    exact .inr ⟨_, _, _, rfl, rfl, rfl, hb.handles, hb.oracle, hb.log⟩
  | active tx =>
    obtain ⟨store, hstore⟩ := hget (congrArg Handle.readTs hh)
    cases hk : tx.writes.lookup key with
    | some pending =>
      simp only [Transaction.get, Transaction.getFrom, hk]
      exact .inr ⟨_, _, _, rfl, rfl, rfl, hb.set h _, hb.oracle, hb.log⟩
    | none =>
      simp only [Transaction.get, Transaction.getFrom, hk, hstore]
      exact .inr ⟨_, _, _, rfl, rfl, rfl, hb.set h _, hb.oracle, hb.log⟩
  | _ => exact .inl ⟨rfl, rfl⟩

theorem agrees_put (hb : Alike t b) (key : Key) (value : Value) :
    Agrees t b (.put h key value) := by
  simp only [Agrees, Sys.step, Backed.step, hb.handle_eq]
  cases b.handle h with
  | active tx => exact .inr ⟨_, _, _, rfl, rfl, rfl, hb.set h _, hb.oracle, hb.log⟩
  | _ => exact .inl ⟨rfl, rfl⟩

theorem agrees_delete (hb : Alike t b) (key : Key) : Agrees t b (.delete h key) := by
  simp only [Agrees, Sys.step, Backed.step, hb.handle_eq]
  cases b.handle h with
  | active tx => exact .inr ⟨_, _, _, rfl, rfl, rfl, hb.set h _, hb.oracle, hb.log⟩
  | _ => exact .inl ⟨rfl, rfl⟩

theorem agrees_commit (hb : Alike t b) (batch : List WriteEntry) (reads : List Key) :
    Agrees t b (.commit h batch reads) := by
  simp only [Agrees, Sys.step, Backed.step, hb.handle_eq, Inner.allocCommitTs, hb.oracle]
  cases b.handle h with
  | active tx =>
    simp only
    split_ifs
    · exact .inr ⟨_, _, _, rfl, rfl, rfl, hb.set h _, hb.oracle, hb.log⟩
    · exact .inr ⟨_, _, _, rfl, rfl, rfl, hb.set h _, rfl, hb.log⟩
    · exact .inl ⟨rfl, rfl⟩
  | _ => exact .inl ⟨rfl, rfl⟩

/-- A commit does the same in both, if the stores return the same, `result a`. -/
theorem agrees_tryCommit (hb : Alike t b) {result : Attempt → Except TxnError Unit}
    (hmem : ∀ {a}, b.handle h = .committing a .allocated →
      t.inner.store.tryCommit a.readTs a.commitTs a.writes a.reads =
        match result a with
        | .ok () => .ok (t.inner.store.installRecovered a.commitTs a.writes)
        | .error e => .error e)
    (hstore : ∀ {a}, b.handle h = .committing a .allocated →
      (VersionStore.tryCommit b.store a.readTs a.commitTs a.writes a.reads).1 = result a) :
    Agrees t b (.tryCommit h) := by
  simp only [Agrees, Sys.step, Backed.step, hb.handle_eq]
  cases hh : b.handle h with
  | committing a stage =>
    cases stage with
    | allocated =>
      have hmem := hmem hh
      obtain ⟨store, hcommit⟩ : ∃ store,
          VersionStore.tryCommit b.store a.readTs a.commitTs a.writes a.reads =
            (result a, store) := ⟨_, Prod.ext (hstore hh) rfl⟩
      cases hresult : result a with
      | ok =>
        rw [hresult] at hmem hcommit
        simp only [hmem, hcommit, hb.log, Option.isSome_none, Bool.false_eq_true, if_false]
        exact .inr ⟨_, _, _, rfl, rfl, rfl, hb.set h _, hb.oracle, rfl⟩
      | error e =>
        rw [hresult] at hmem hcommit
        simp only [hmem, hcommit]
        exact .inr ⟨_, _, _, rfl, rfl, rfl, hb.set h _, hb.oracle, hb.log⟩
    | _ => exact .inl ⟨rfl, rfl⟩
  | _ => exact .inl ⟨rfl, rfl⟩

theorem agrees_commitDone (hb : Alike t b) : Agrees t b (.commitDone h) := by
  simp only [Agrees, Sys.step, Backed.step, hb.handle_eq, Inner.commitDone, hb.oracle]
  cases b.handle h with
  | committing a stage =>
    cases stage with
    | decided result => exact .inr ⟨_, _, _, rfl, rfl, rfl, hb.set h _, rfl, hb.log⟩
    | _ => exact .inl ⟨rfl, rfl⟩
  | _ => exact .inl ⟨rfl, rfl⟩

theorem agrees_drop (hb : Alike t b) : Agrees t b (.drop h) := by
  simp only [Agrees, Sys.step, Backed.step, hb.handle_eq, Inner.endReader, hb.oracle]
  cases b.handle h with
  | reading | active | finished =>
    exact .inr ⟨_, _, _, rfl, rfl, rfl, hb.set h _, rfl, hb.log⟩
  | _ => exact .inl ⟨rfl, rfl⟩

theorem agrees_collectGarbage (hb : Alike t b) : Agrees t b .collectGarbage := by
  simp only [Agrees, Sys.step, Backed.step, hb.oracle]
  exact .inr ⟨_, _, _, rfl, rfl, rfl, hb.handles, hb.oracle, hb.log⟩

variable [ExactVersionStore σ] {tr tr' : List Event} {t₁ : Sys} {act : Action}

/-- But for the collection of garbage, an action does the same in memory as over an exact
    store, if they have the same history. -/
theorem agrees (hb : Alike t b) (hr : Reached tr t) (hm : Mirrors tr' t₁ b)
    (hhist : history tr = history tr') (hact : ∀ g, act ≠ .prune g) : Agrees t b act := by
  cases act with
  | begin kind => exact hb.agrees_begin kind
  | get h key =>
    refine hb.agrees_get fun {r} hread => ?_
    -- both are what the history shows
    have hvalue := hm.get_exact (Sys.sees_of_readTs (hm.handle_eq h ▸ hread)) key
    rw [← hhist, ← hr.toInv.get_eq (Sys.sees_of_readTs (hb.handle_eq h ▸ hread))] at hvalue
    exact ⟨_, Prod.ext hvalue rfl⟩
  | put h key value => exact hb.agrees_put key value
  | delete h key => exact hb.agrees_delete key
  | commit h batch reads => exact hb.agrees_commit batch reads
  | tryCommit h =>
    refine hb.agrees_tryCommit (fun hh => ?_) fun hh => hm.tryCommit_exact (hm.handle_eq h ▸ hh)
    rw [← historyVersions_congr hhist]
    exact hr.tryCommit_eq (hb.handle_eq h ▸ hh)
  | commitDone h => exact hb.agrees_commitDone
  | drop h => exact hb.agrees_drop
  | collectGarbage => exact hb.agrees_collectGarbage
  | prune g => exact absurd rfl (hact g)
  | append h => exact .inl ⟨hb.step_eq_none.1 h, rfl⟩
  | appended h failure => exact .inl ⟨hb.step_eq_none.2.1 h failure, rfl⟩
  | crash survivors log => exact .inl ⟨hb.step_eq_none.2.2 survivors log, rfl⟩

end Alike

namespace Backed

variable [VersionStore σ] [ExactVersionStore σ] {store : σ} {obs : List Observed}
  {tr : List Event}

/-- A run over an exact store is one in memory. -/
theorem Run.in_memory (hrun : Backed.Run store obs b)
    (hempty : LawfulVersionStore.Keeps store (fun _ => ∅) 0)
    (hlt : allocations (events obs) < 2 ^ 64) :
    ∃ t, TxnDb.Run .new (events obs) t ∧ withoutPrunes (events obs) = events obs ∧ Alike t b := by
  refine Trace.Run.invariant (motive := fun obs b => allocations (events obs) < 2 ^ 64 →
    ∃ t, TxnDb.Run .new (events obs) t ∧ withoutPrunes (events obs) = events obs ∧ Alike t b) hrun
    (fun _ => ⟨_, .nil, rfl, rfl, rfl, rfl⟩) ?_ hlt
  rintro obs b o b' hrun ih ⟨act, hact⟩ hlt
  rw [events_append_singleton] at hlt ⊢
  have hlt' := allocations_lt_of_append hlt
  obtain ⟨t, ht, hpruned, hb⟩ := ih hlt'
  obtain ⟨t₁, hm⟩ := Backed.Run.mirrors hrun hempty hlt'
  by_cases hprune : ∃ g, act = .prune g
  · obtain ⟨g, rfl⟩ := hprune
    obtain ⟨hnone, hb'⟩ := hb.collected hact
    rw [hnone, Option.toList_none, List.append_nil]
    exact ⟨t, ht, hpruned, hb'⟩
  · rcases hb.agrees (reached_of_run_new ht hlt') hm rfl (not_exists.1 hprune) with
      ⟨-, hnone⟩ | ⟨t', b'', e, ht', hb'', he, halike⟩
    · rw [hact] at hnone
      cases hnone
    · obtain ⟨rfl, rfl⟩ := Prod.mk.inj (Option.some.inj (hact.symm.trans hb''))
      refine ⟨t', ht.snoc ⟨act, ht'⟩, ?_, halike⟩
      rw [withoutPrunes, List.filter_append, ← withoutPrunes, hpruned]
      simp [Observed.event?, he]

/-- A run in memory is one over an exact store, which collects no garbage. -/
theorem Run.over_store {t : Sys} (hrun : TxnDb.Run .new tr t)
    (hempty : LawfulVersionStore.Keeps store (fun _ => ∅) 0) (hlt : allocations tr < 2 ^ 64) :
    ∃ obs b, Backed.Run store obs b ∧ events obs = withoutPrunes tr ∧ Alike t b := by
  refine Trace.Run.invariant (motive := fun tr t => allocations tr < 2 ^ 64 →
    ∃ obs b, Backed.Run store obs b ∧ events obs = withoutPrunes tr ∧ Alike t b) hrun
    (fun _ => ⟨[], _, .nil, rfl, rfl, rfl, rfl⟩) ?_ hlt
  rintro tr t e t' hrun ih ⟨act, hact⟩ hlt
  have hlt' := allocations_lt_of_append hlt
  obtain ⟨obs, b, hobs, hevents, hb⟩ := ih hlt'
  obtain ⟨hhist, hall⟩ := history_withoutPrunes tr
  obtain ⟨t₁, hm⟩ := Backed.Run.mirrors hobs hempty (hevents ▸ hall ▸ hlt')
  rw [withoutPrunes, List.filter_append, ← withoutPrunes]
  by_cases hprune : ∃ g, act = .prune g
  · obtain ⟨g, rfl⟩ := hprune
    obtain ⟨he, hb'⟩ := hb.pruned hact
    exact ⟨obs, b, hobs, by simp [he, hevents], hb'⟩
  · rcases hb.agrees (reached_of_run_new hrun hlt') hm (hevents ▸ hhist.symm)
      (not_exists.1 hprune) with ⟨hnone, -⟩ | ⟨t'', b', e', ht', hb', he, halike⟩
    · rw [hact] at hnone
      cases hnone
    · obtain ⟨rfl, rfl⟩ := Prod.mk.inj (Option.some.inj (hact.symm.trans ht'))
      refine ⟨obs ++ [.event e], b', hobs.snoc ⟨act, hb'⟩, ?_, halike⟩
      rw [events_append_singleton, hevents]
      simp [Observed.event?, he]

/-- What is observed over an exact store, empty at first, but for the garbage it collects, is
    what is observed in memory, but for the prunes: no store that never fails can be told from
    the one in memory. -/
theorem traces_iff (hempty : LawfulVersionStore.Keeps store (fun _ => ∅) 0)
    (hlt : allocations tr < 2 ^ 64) :
    (∃ obs b, Backed.Run store obs b ∧ events obs = tr) ↔
      ∃ tr' t, TxnDb.Run .new tr' t ∧ withoutPrunes tr' = tr := by
  constructor
  · rintro ⟨obs, b, hrun, rfl⟩
    obtain ⟨t, ht, hpruned, -⟩ := Run.in_memory hrun hempty hlt
    exact ⟨_, t, ht, hpruned⟩
  · rintro ⟨tr', t, hrun, rfl⟩
    obtain ⟨obs, b, hobs, hevents, -⟩ :=
      Run.over_store hrun hempty ((history_withoutPrunes tr').2 ▸ hlt)
    exact ⟨obs, b, hobs, hevents⟩

/-- The run of the counter, over one map behind a single lock. -/
theorem traces_iff_counter :
    ∃ obs b, Backed.Run (⟨∅⟩ : BTreeStore) obs b ∧ events obs = withoutPrunes counterTrace := by
  obtain ⟨s, hrun, -⟩ := TxnDb.run_of_exec exec_counterRun
  have hempty : LawfulVersionStore.Keeps (⟨∅⟩ : BTreeStore) (fun _ => ∅) 0 :=
    KeepsChains.empty fun _ => rfl
  exact (traces_iff hempty (by decide)).2 ⟨counterTrace, s, hrun, rfl⟩

end Backed

end Alike

end TxnDb
