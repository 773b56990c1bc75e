import TxnDb.Backed.Refused
import TxnDb.Stores.Chains

/-!
# The mirror

A run over a lawful store is mirrored (`Mirrors`) by one in memory that collects no garbage and
whose commits may also be rejected (`Refused`): both have the same handles and the same oracle,
and the store keeps the versions of the history (`historyVersions`). Each step over the store that
is observed as an event is a step in memory (`Mirrored`), and the others change nothing but the
store (`Mirrors.cases`).
-/

namespace TxnDb

open Mvcc

variable {tr : List Event} {s t t' : Sys} {h r : ℕ} {a : Attempt} {e : Event} {k : Key}

/-- The versions of the history. -/
def historyVersions (tr : List Event) : VersionSets := fun k => {v | v ∈ versions (history tr) k}

theorem historyVersions_congr {tr' : List Event} (h : history tr = history tr') :
    historyVersions tr = historyVersions tr' :=
  funext fun k => by rw [historyVersions, historyVersions, h]

theorem historyVersions_nil : historyVersions [] = fun _ => ∅ :=
  funext fun _ => Set.ext fun _ => iff_of_false List.not_mem_nil id

/-- The versions of the history give what the history shows. -/
theorem historyVersions_reads_iff (hinv : Inv tr s) {value : Option Value} :
    (historyVersions tr).Reads k r value ↔ snapshot (history tr) r k = value :=
  VersionSets.reads_iff (fun _ => Iff.rfl) (hinv.valid.ascending k)

/-- The versions of the history are in conflict if its transactions are. -/
theorem historyVersions_conflicts_iff :
    (historyVersions tr).Conflicts a.readTs a.writes a.reads ↔ Conflicts (history tr) a := by
  constructor
  · rintro ⟨k, hk, hnewer⟩
    obtain ⟨b, hb, hbk, hlt⟩ := newer_versions.1 hnewer
    exact ⟨b, hb, hlt, k, hbk, hk⟩
  · rintro ⟨b, hb, hlt, k, hbk, hk⟩
    exact ⟨k, hk, newer_versions.2 ⟨b, hb, hbk, hlt⟩⟩

/-- A commit adds its versions to those of the history. -/
theorem historyVersions_committed (hnd : a.writes.NodupKeys) :
    historyVersions (tr ++ [.committed a]) = (historyVersions tr).commit a.commitTs a.writes := by
  funext k
  ext v
  rw [historyVersions, history_append_singleton, Event.extend, Set.mem_ofPred_eq,
    Inv.versions_append_singleton hnd, List.mem_append, List.mem_map]
  refine or_congr_right ⟨?_, ?_⟩
  · rintro ⟨value, hmem, rfl⟩
    exact ⟨rfl, List.mem_lookupAll.1 hmem⟩
  · rintro ⟨hts, hmem⟩
    exact ⟨v.value, List.mem_lookupAll.2 hmem, by rw [← hts]⟩

variable {σ : Type*} [VersionStore σ] [LawfulVersionStore σ] {b b' : Backed σ} {o : Observed}

/-- The database in memory `t` is where the one over a store is, which keeps the versions of the
    history. -/
structure Mirrors (tr : List Event) (t : Sys) (b : Backed σ) : Prop extends Reached tr t where
  handles : t.handles = b.handles
  oracle : t.inner.oracle = b.oracle
  log : t.inner.log = none
  unopened : ∀ L, .opened L ∉ tr
  /-- The garbage collections to come are at safe timestamps. -/
  lows : ∀ low ∈ b.sweeps, t.Safe low
  keeps : ∃ w, t.Safe w ∧ LawfulVersionStore.Keeps b.store (historyVersions tr) w

/-- A step of the database over a store, which is observed as `e`, is a step in memory, or a
    commit that is rejected. -/
structure Mirrored (tr : List Event) (t : Sys) (b' : Backed σ) (e : Event) (t' : Sys) : Prop where
  step : Step t e t' ∨ Refused t e t'
  handles : t'.handles = b'.handles
  oracle : t'.inner.oracle = b'.oracle
  lows : ∀ low ∈ b'.sweeps, t.Safe low
  keeps : ∃ w, t.Safe w ∧ LawfulVersionStore.Keeps b'.store (historyVersions (tr ++ [e])) w

namespace Mirrors

theorem handle_eq (hm : Mirrors tr t b) (h : ℕ) : t.handle h = b.handle h := by
  rw [Sys.handle, hm.handles]
  rfl

/-- A read that returns gives what the history shows. -/
theorem get_eq (hm : Mirrors tr t b) (hsees : t.Sees r) {value : Option Value} {store : σ}
    (hget : VersionStore.get b.store k r = (.ok value, store)) :
    value = t.inner.store.get k r := by
  obtain ⟨w, hw, hkeeps⟩ := hm.keeps
  have hreads := LawfulVersionStore.get_ok hkeeps (hsees w hw) hget
  rw [hm.toInv.get_eq hsees, (historyVersions_reads_iff hm.toInv).1 hreads]

/-- A read leaves the versions that are kept. -/
theorem keeps_get (hm : Mirrors tr t b) (hsees : t.Sees r) (k : Key) :
    ∃ w, t.Safe w ∧
      LawfulVersionStore.Keeps (VersionStore.get b.store k r).2 (historyVersions tr) w := by
  obtain ⟨w, hw, hkeeps⟩ := hm.keeps
  exact ⟨w, hw, LawfulVersionStore.keeps_get hkeeps (hsees w hw)⟩

/-- What a commit comes to. -/
theorem commit_cases (hm : Mirrors tr t b) (hh : t.handle h = .committing a .allocated)
    {result : Except TxnError Unit} {store : σ}
    (hcommit : VersionStore.tryCommit b.store a.readTs a.commitTs a.writes a.reads =
      (result, store)) :
    ∃ w, t.Safe w ∧
      ((result = .ok () ∧ ¬Conflicts (history tr) a ∧ LawfulVersionStore.Keeps store
          ((historyVersions tr).commit a.commitTs a.writes) w) ∨
        ∃ e, result = .error e ∧ LawfulVersionStore.Keeps store (historyVersions tr) w ∧
          ((∃ k, a.Touches k ∧ Conflicts (history tr) a ∧ e = .conflict k.length) ∨
            ∃ context detail, e = .store context detail)) := by
  obtain ⟨w, hw, hkeeps⟩ := hm.keeps
  have hle : w ≤ a.readTs := hw.2 h a.readTs (congrArg Handle.readTs hh)
  have hatt := hm.attempts hh
  refine ⟨w, hw, ?_⟩
  cases result with
  | ok =>
    have hlt : a.readTs < a.commitTs := (hm.readTs_lt hh).1.trans_lt (hm.readTs_lt hh).2
    -- no transaction of the history has the timestamp of the attempt
    have hnew : ∀ k, ∀ v ∈ historyVersions tr k, v.commitTs ≠ a.commitTs := by
      rintro k v hv hts
      obtain ⟨b, hb, -, hbv⟩ := mem_versions.1 hv
      exact (hatt.eq_of_mem b hb (hbv.trans hts)).2
    obtain ⟨hno, hkeeps'⟩ := LawfulVersionStore.tryCommit_ok hkeeps hle hlt hnew hatt.nodupKeys
      hcommit
    exact .inl ⟨rfl, mt historyVersions_conflicts_iff.2 hno, hkeeps'⟩
  | error e =>
    obtain ⟨hkeeps', hcases⟩ := LawfulVersionStore.tryCommit_error hkeeps hle hcommit
    refine .inr ⟨e, rfl, hkeeps', hcases.imp_left ?_⟩
    rintro ⟨k, hk, hnewer, he⟩
    exact ⟨k, hk, historyVersions_conflicts_iff.1 ⟨k, hk, hnewer⟩, he⟩

/-- A commit that is not in conflict with the history succeeds in memory. -/
theorem exists_tryCommit (hm : Mirrors tr t b) (hh : t.handle h = .committing a .allocated)
    (hno : ¬Conflicts (history tr) a) :
    ∃ store, t.inner.store.tryCommit a.readTs a.commitTs a.writes a.reads = .ok store := by
  have hsees : t.Sees a.readTs := Sys.sees_of_readTs (congrArg Handle.readTs hh)
  rw [MemoryStore.tryCommit_eq, (hm.conflict?_eq_none_iff hsees).2 hno]
  exact ⟨_, rfl⟩

/-- A handle changes, and the store may, which keeps the versions of the history. -/
theorem set (inner : Inner) (store : σ) (hm : Mirrors tr t b) {x : Handle} {oracle : Oracle}
    (hstep : Step t e (t.set h x inner) ∨ Refused t e (t.set h x inner))
    (horacle : inner.oracle = oracle)
    (hkeeps : ∃ w, t.Safe w ∧
      LawfulVersionStore.Keeps store (historyVersions (tr ++ [e])) w) :
    Mirrored tr t { b.set h x oracle with store } e (t.set h x inner) :=
  ⟨hstep, congrArg (List.set · h x) hm.handles, horacle, hm.lows, hkeeps⟩

/-- The versions are those of the history before, if a step does not extend it. -/
theorem keeps_of_extend {store : σ} (hhist : e.extend (history tr) = history tr)
    (hkeeps : ∃ w, t.Safe w ∧ LawfulVersionStore.Keeps store (historyVersions tr) w) :
    ∃ w, t.Safe w ∧ LawfulVersionStore.Keeps store (historyVersions (tr ++ [e])) w := by
  rwa [historyVersions_congr (history_append_singleton.trans hhist)]

/-- A handle changes, and the oracle with it. -/
theorem set_of_extend (hm : Mirrors tr t b) {x : Handle} {inner : Inner} {oracle : Oracle}
    (hstep : Step t e (t.set h x inner)) (horacle : inner.oracle = oracle)
    (hhist : e.extend (history tr) = history tr) :
    Mirrored tr t (b.set h x oracle) e (t.set h x inner) :=
  hm.set inner b.store (.inl hstep) horacle (keeps_of_extend hhist hm.keeps)

theorem step_began (hm : Mirrors tr t b) (kind : Kind) :
    ∃ t', Mirrored tr t
      { b with
        handles := b.handles ++ [.begin b.oracle.readTs kind]
        oracle := b.oracle.beginReader.2 }
      (.began b.handles.length kind b.oracle.readTs) t' := by
  have hread : t.inner.readTs = b.oracle.readTs := by rw [Inner.readTs, hm.oracle]
  rw [← hm.handles, ← hread]
  exact ⟨_, .inl (.began kind), rfl, congrArg (Prod.snd ∘ Oracle.beginReader) hm.oracle, hm.lows,
    keeps_of_extend rfl hm.keeps⟩

theorem step_gotSnapshot {value : Option Value} {store : σ} (hm : Mirrors tr t b)
    (hh : b.handle h = .reading r) (hget : VersionStore.get b.store k r = (.ok value, store)) :
    ∃ t', Mirrored tr t { b with store } (.got h r k value false) t' := by
  rw [← hm.handle_eq] at hh
  have hsees := Sys.sees_of_readTs (congrArg Handle.readTs hh)
  have hkeeps := hm.keeps_get hsees k
  rw [hget] at hkeeps
  rw [hm.get_eq hsees hget]
  exact ⟨_, .inl (.gotSnapshot hh), hm.handles, hm.oracle, hm.lows, keeps_of_extend rfl hkeeps⟩

theorem step_gotStore {tx : Transaction} {value : Option Value} {store : σ} (hm : Mirrors tr t b)
    (hh : b.handle h = .active tx) (hk : tx.writes.lookup k = none)
    (hget : VersionStore.get b.store k tx.readTs = (.ok value, store)) :
    ∃ t', Mirrored tr t
      { b.set h (.active { tx with reads := tx.reads.map (insert k) }) b.oracle with store }
      (.got h tx.readTs k value false) t' := by
  rw [← hm.handle_eq] at hh
  have hsees := Sys.sees_of_readTs (congrArg Handle.readTs hh)
  have hkeeps := hm.keeps_get hsees k
  rw [hget] at hkeeps
  rw [hm.get_eq hsees hget]
  exact ⟨_, hm.set t.inner store (.inl (.gotStore hh hk)) hm.oracle (keeps_of_extend rfl hkeeps)⟩

/-- A read that fails changes nothing but the store. -/
theorem step_failed {err : TxnError} {store : σ} (hm : Mirrors tr t b)
    (hh : (b.handle h).readTs = some r)
    (hget : VersionStore.get b.store k r = (.error err, store)) :
    Mirrors tr t { b with store } := by
  rw [← hm.handle_eq] at hh
  have hkeeps := hm.keeps_get (Sys.sees_of_readTs hh) k
  rw [hget] at hkeeps
  exact ⟨hm.toReached, hm.handles, hm.oracle, hm.log, hm.unopened, hm.lows, hkeeps⟩

/-- A commit that succeeds over the store succeeds in memory. -/
theorem step_committed {store : σ} (hm : Mirrors tr t b)
    (hh : b.handle h = .committing a .allocated)
    (hcommit : VersionStore.tryCommit b.store a.readTs a.commitTs a.writes a.reads =
      (.ok (), store)) :
    ∃ t', Mirrored tr t
      { b.set h (.committing a (.decided (.ok a.commitTs))) b.oracle with store }
      (.committed a) t' := by
  rw [← hm.handle_eq] at hh
  obtain ⟨w, hw, ⟨-, hno, hkeeps⟩ | ⟨e, he, -⟩⟩ := hm.commit_cases hh hcommit
  · rw [← historyVersions_committed (hm.attempts hh).nodupKeys] at hkeeps
    obtain ⟨mem, hok⟩ := hm.exists_tryCommit hh hno
    refine ⟨_, hm.set { t.inner with store := mem } store (.inl (.committed hh hok ?_)) hm.oracle
      ⟨w, hw, hkeeps⟩⟩
    rw [hm.log]
    rfl
  · cases he

/-- A commit that fails over the store may be rejected in memory. -/
theorem step_conflicted {err : TxnError} {store : σ} (hm : Mirrors tr t b)
    (hh : b.handle h = .committing a .allocated)
    (hcommit : VersionStore.tryCommit b.store a.readTs a.commitTs a.writes a.reads =
      (.error err, store)) :
    ∃ t', Mirrored tr t { b.set h (.committing a (.decided (.error err))) b.oracle with store }
      (.conflicted a err) t' := by
  rw [← hm.handle_eq] at hh
  obtain ⟨w, hw, ⟨he, -⟩ | ⟨e, he, hkeeps, hcases⟩⟩ := hm.commit_cases hh hcommit
  · cases he
  · obtain rfl := Except.error.inj he
    refine ⟨_, hm.set t.inner store (.inr (.mk hh ?_)) hm.oracle
      (keeps_of_extend rfl ⟨w, hw, hkeeps⟩)⟩
    rcases hcases with ⟨k, -, -, rfl⟩ | ⟨context, detail, rfl⟩ <;> exact id

theorem step_swept (hm : Mirrors tr t b) :
    ∃ t', Mirrored tr t { b with sweeps := b.sweeps ++ [b.oracle.lowWatermark] }
      (.swept b.oracle.lowWatermark) t' := by
  rw [← hm.oracle]
  refine ⟨_, .inl .swept, hm.handles, rfl, fun low hlow => ?_, keeps_of_extend rfl hm.keeps⟩
  rcases List.mem_append.1 hlow with hlow | hlow
  · exact hm.lows low hlow
  · rw [List.mem_singleton.1 hlow]
    exact hm.safe_lowWatermark

/-- The store is called to collect garbage: the versions kept are those of a higher low
    watermark. -/
theorem step_collected {g low reclaimed : ℕ} {store : σ} (hm : Mirrors tr t b)
    (hg : b.sweeps[g]? = some low)
    (hcollect : VersionStore.collectGarbage b.store low = (reclaimed, store)) :
    Mirrors tr t { b with store, sweeps := b.sweeps.eraseIdx g } := by
  obtain ⟨w, hw, hkeeps⟩ := hm.keeps
  have hlow := hm.lows low (List.mem_of_getElem? hg)
  have hkeeps : LawfulVersionStore.Keeps store (historyVersions tr) (max w low) := by
    have hkeeps' := @LawfulVersionStore.keeps_collectGarbage σ _ _ _ _ _ low hkeeps
    rwa [hcollect] at hkeeps'
  exact ⟨hm.toReached, hm.handles, hm.oracle, hm.log, hm.unopened,
    fun low hlow => hm.lows low (List.eraseIdx_subset hlow), max w low,
    ⟨max_le hw.1 hlow.1, fun h r hr => max_le (hw.2 h r hr) (hlow.2 h r hr)⟩, hkeeps⟩

/-- A step over a store is a failed read, a call to collect garbage, or mirrored. -/
theorem cases (hm : Mirrors tr t b) (hstep : Backed.Step b o b') :
    (o.event? = none ∧ Mirrors tr t b') ∨ ∃ e, o = .event e ∧ ∃ t', Mirrored tr t b' e t' := by
  have hset {h : ℕ} {x : Handle} (hh : b.handle h = x) : t.handle h = x := by rw [hm.handle_eq, hh]
  cases hstep with
  | began kind => exact .inr ⟨_, rfl, hm.step_began kind⟩
  | gotSnapshot hh hget => exact .inr ⟨_, rfl, hm.step_gotSnapshot hh hget⟩
  | gotStore hh hk hget => exact .inr ⟨_, rfl, hm.step_gotStore hh hk hget⟩
  | gotOwn hh hk => exact .inr ⟨_, rfl, _, hm.set_of_extend (.gotOwn (hset hh) hk) hm.oracle rfl⟩
  | failed hh hget => exact .inl ⟨rfl, hm.step_failed hh hget⟩
  | wrote hh => exact .inr ⟨_, rfl, _, hm.set_of_extend (.wrote (hset hh)) hm.oracle rfl⟩
  | readOnly hh hw =>
    exact .inr ⟨_, rfl, _, hm.set_of_extend (.readOnly (hset hh) hw) hm.oracle rfl⟩
  | allocated hh hid hr hc hw hne hreads =>
    exact .inr ⟨_, rfl, _, hm.set_of_extend
      (.allocated (hset hh) hid hr (by rw [hc, hm.oracle]) hw hne hreads)
      (congrArg (Prod.snd ∘ Oracle.allocCommitTs) hm.oracle) rfl⟩
  | committed hh hcommit => exact .inr ⟨_, rfl, hm.step_committed hh hcommit⟩
  | conflicted hh hcommit => exact .inr ⟨_, rfl, hm.step_conflicted hh hcommit⟩
  | @reported _ a _ hh =>
    exact .inr ⟨_, rfl, _, hm.set_of_extend (.reported (hset hh))
      (congrArg (·.commitDone a.commitTs) hm.oracle) rfl⟩
  | @returned _ r _ hh =>
    exact .inr ⟨_, rfl, _, hm.set_of_extend (.returned (hset hh))
      (congrArg (·.endReader r) hm.oracle) rfl⟩
  | @droppedSnapshot _ r hh =>
    exact .inr ⟨_, rfl, _, hm.set_of_extend (.droppedSnapshot (hset hh))
      (congrArg (·.endReader r) hm.oracle) rfl⟩
  | @droppedTransaction _ tx hh =>
    exact .inr ⟨_, rfl, _, hm.set_of_extend (.droppedTransaction (hset hh))
      (congrArg (·.endReader tx.readTs) hm.oracle) rfl⟩
  | swept => exact .inr ⟨_, rfl, hm.step_swept⟩
  | collected hg hcollect => exact .inl ⟨rfl, hm.step_collected hg hcollect⟩

/-- A mirrored step leads to where the database over the store is. -/
theorem mirrored (hm : Mirrors tr t b) (hstep : Mirrored tr t b' e t')
    (hlt : allocations (tr ++ [e]) < 2 ^ 64) : Mirrors (tr ++ [e]) t' b' := by
  obtain ⟨hr, hlog, hopen, hsafe⟩ : Reached (tr ++ [e]) t' ∧ t'.inner.log = none ∧
      (∀ L, e ≠ .opened L) ∧ ∀ {w}, t.Safe w → t'.Safe w := by
    rcases hstep.step with hs | hrej
    · obtain ⟨hlog, hopen⟩ := hs.log_eq_none hm.log
      exact ⟨hm.toReached.step hs hlt fun ⟨L, hL⟩ => absurd hL (hopen L), hlog, hopen,
        fun hw => hw.step hs (hm.toInv.advance hs hlt hopen).2.1⟩
    · refine ⟨hm.toReached.refused hrej hm.log, hrej.inner_eq ▸ hm.log, ?_, hrej.safe⟩
      cases hrej
      exact nofun
  obtain ⟨w, hw, hkeeps⟩ := hstep.keeps
  refine ⟨hr, hstep.handles, hstep.oracle, hlog, fun L hL => ?_,
    fun low hlow => hsafe (hstep.lows low hlow), w, hsafe hw, hkeeps⟩
  rcases List.mem_append.1 hL with hL | hL
  · exact hm.unopened L hL
  · exact hopen L (List.mem_singleton.1 hL).symm

end Mirrors

end TxnDb
