import TxnDb.Isolation
import TxnDb.Reclaim.Housed

/-!
# What becomes of the versions

No version is lost, and none stays for good, in every run, across any number of crashes:

* `versions_accounted`: the versions that were installed since the database was opened are those
  in the store, and those that the garbage collections have counted as they removed them;
* `collected_at_rest`: once every handle is dropped, one garbage collection leaves one version
  of each key that has a value, and nothing of the others.
-/

namespace TxnDb

open Mvcc

variable {tr : List Event} {s₀ s s' : Sys} {e : Event} {a : Attempt} {store : MemoryStore}

/-- The number of versions that the history has installed. -/
def installed (tr : List Event) : ℕ := ((history tr).map fun a => a.writes.length).sum

/-- The number of versions that the garbage collections have counted. -/
def Sys.reclaimed (s : Sys) : ℕ := (s.sweeps.map Sweep.reclaimed).sum

/-- The versions installed are in the store, or were counted by a garbage collection. -/
structure Accounted (tr : List Event) (s : Sys) : Prop where
  housed : s.inner.store.Housed
  count : s.inner.store.versionCount + s.reclaimed = installed tr

/-- A step that neither commits, nor prunes, nor opens the database. -/
theorem Step.accounted (hstep : Step s e s') (hc : ∀ a, e ≠ .committed a)
    (hprune : ∀ g i, e ≠ .pruned g i) (hopen : ∀ L, e ≠ .opened L) (hs : Accounted tr s) :
    Accounted (tr ++ [e]) s' := by
  have hsame : s'.inner.store = s.inner.store ∧ s'.reclaimed = s.reclaimed ∧
      e.extend (history tr) = history tr := by
    cases hstep with
    | committed => exact absurd rfl (hc _)
    | pruned => exact absurd rfl (hprune _ _)
    | opened => exact absurd rfl (hopen _)
    | swept =>
      refine ⟨rfl, ?_, rfl⟩
      rw [Sys.reclaimed, Sys.reclaimed, List.map_append, List.sum_append]
      rfl
    | _ => exact ⟨rfl, rfl, rfl⟩
  obtain ⟨hstore, hreclaimed, hhist⟩ := hsame
  constructor
  · rw [hstore]
    exact hs.housed
  · rw [hstore, hreclaimed, installed, history_append_singleton, hhist]
    exact hs.count

theorem Accounted.committed (hs : Accounted tr s) (hstep : Step s (.committed a) s') :
    Accounted (tr ++ [.committed a]) s' := by
  cases hstep with
  | @committed h _ store stage hh hok =>
    rw [MemoryStore.tryCommit_eq] at hok
    split at hok
    · cases hok
    obtain rfl := Except.ok.inj hok
    refine ⟨hs.housed.installRecovered _ _, ?_⟩
    have hcount := hs.count
    have hinstall := s.inner.store.versionCount_installRecovered a.commitTs a.writes
    rw [installed, history_append_singleton]
    simp only [Event.extend, List.map_append, List.sum_append, List.map_singleton,
      List.sum_singleton]
    rw [installed] at hcount
    change (s.inner.store.installRecovered a.commitTs a.writes).versionCount + s.reclaimed = _
    omega

/-- What is counted is what is gone, shard by shard. -/
theorem Accounted.pruned (hs : Accounted tr s) {g : ℕ}
    (hsorted : ∀ k, Sorted (s.inner.store.chain k))
    (hstep : s.step (.prune g) = some (s', e)) : Accounted (tr ++ [e]) s' := by
  simp only [Sys.step] at hstep
  split at hstep
  · next sweep hg =>
    split_ifs at hstep with hlt
    obtain ⟨rfl, rfl⟩ := Prod.mk.inj (Option.some.inj hstep)
    have hordered := hs.housed.ordered hsorted sweep.next
    refine ⟨hs.housed.pruneShard hordered _ hlt, ?_⟩
    have hcount := hs.count
    have hprune := MemoryStore.versionCount_pruneShard (w := sweep.lowWatermark) hordered hlt
    obtain ⟨hlen, hget⟩ := List.getElem?_eq_some_iff.1 hg
    have hsum := List.sum_map_set Sweep.reclaimed hlen ⟨sweep.lowWatermark, sweep.next + 1,
      sweep.reclaimed + (s.inner.store.pruneShard sweep.lowWatermark sweep.next).2⟩
    rw [hget] at hsum
    rw [installed, history_append_singleton]
    change _ + ((s.sweeps.set g _).map Sweep.reclaimed).sum = installed tr
    rw [Sys.reclaimed] at hcount
    simp only at hsum ⊢
    omega
  · cases hstep

/-- Only the prune of a shard is observed as one. -/
theorem Sys.eq_prune {act : Action} {g i : ℕ} (h : s.step act = some (s', .pruned g i)) :
    act = .prune g := by
  cases act with
  | prune g' =>
    simp only [Sys.step] at h
    grind
  | _ => grind [Sys.step]

/-- The versions of the transactions that are replayed are in the store. -/
theorem accounted_replay (L : List Attempt) : (replay L).2.Housed ∧
    (replay L).2.versionCount = (L.map fun a => a.writes.length).sum := by
  have hinstall := installAll_induction (motive := fun L store => store.Housed ∧
    store.versionCount = (L.map fun commit => commit.writes.length).sum)
    ⟨MemoryStore.housed_withShards 16, MemoryStore.versionCount_withShards 16⟩
    (fun {L commit store} ⟨hhoused, hcount⟩ => ⟨hhoused.installRecovered _ _, by
      rw [MemoryStore.versionCount_installRecovered, hcount, List.map_append, List.sum_append]
      rfl⟩) (L.map commitOf)
  rwa [List.map_map] at hinstall

theorem accounted_of_run (h₀ : s₀.Fresh) (hrun : Run s₀ tr s) (hlt : allocations tr < 2 ^ 64)
    (hfit : Recoverable tr) : Accounted tr s := by
  revert hlt hfit
  refine Trace.Run.invariant (motive := fun tr s => allocations tr < 2 ^ 64 → Recoverable tr →
    Accounted tr s) hrun (fun _ _ => ?_) ?_
  · have hempty := MemoryStore.versionCount_withShards 16
    have hhoused := MemoryStore.housed_withShards 16
    rcases h₀ with rfl | rfl <;> exact ⟨hhoused, hempty⟩
  rintro tr s e s' hrun ih ⟨act, hact⟩ hlt hfit
  have hr := reached_of_run h₀ hrun (allocations_lt_of_append hlt) hfit.of_append
  have hs := ih (allocations_lt_of_append hlt) hfit.of_append
  have hstep := step_inv hact
  by_cases hprune : ∃ g i, e = .pruned g i
  · obtain ⟨g, i, rfl⟩ := hprune
    obtain rfl := Sys.eq_prune hact
    exact hs.pruned (fun k => (hr.ascending k).sorted) hact
  by_cases hcommit : ∃ a, e = .committed a
  · obtain ⟨a, rfl⟩ := hcommit
    exact hs.committed hstep
  by_cases hopen : ∃ L, e = .opened L
  · obtain ⟨L, rfl⟩ := hopen
    cases hstep with
    | opened hlog hsub hperm hopen hrec =>
      obtain ⟨M, rfl, -, -, hopen', hrec'⟩ :=
        hr.toLogged.crash hr.toInv (fun a ha => hfit ⟨L, by simp⟩ a (List.mem_append_left _ ha))
          hlog hsub hperm
      obtain rfl := Except.ok.inj (hopen.symm.trans hopen')
      obtain rfl := Except.ok.inj (hrec.symm.trans hrec')
      obtain ⟨hhoused, hcount⟩ := accounted_replay (recovered M)
      refine ⟨hhoused, ?_⟩
      rw [installed, history_append_singleton]
      exact hcount
  · exact hstep.accounted (not_exists.1 hcommit) (fun g i he => hprune ⟨g, i, he⟩)
      (not_exists.1 hopen) hs

/-- In every run, the versions installed since the database was opened are in the store, or have
    been counted by a garbage collection, once. -/
theorem versions_accounted (h₀ : s₀.Fresh) (hrun : Run s₀ tr s) (hlt : allocations tr < 2 ^ 64)
    (hfit : Recoverable tr) : s.inner.store.versionCount + s.reclaimed = installed tr :=
  (accounted_of_run h₀ hrun hlt hfit).count

/-! ## A store tidied up

A key is written, and deleted again after a crash; the garbage collection that follows has
pruned the first shard, which is that of the key. -/

def tidied : Attempt := ⟨0, 0, 1, [⟨[101], some [1]⟩, ⟨[120], some [2]⟩], []⟩

def tidying : Attempt := ⟨1, 1, 2, [⟨[120], some [3]⟩, ⟨[101], none⟩], []⟩

def tidyRun : List Action :=
  [.begin .transaction, .put 0 [101] [1], .put 0 [120] [2], .commit 0 tidied.writes [],
    .tryCommit 0, .append 0, .appended 0 none, .commitDone 0, .drop 0,
    .crash [] [record tidied], .begin .transaction, .delete 1 [101], .put 1 [120] [3],
    .commit 1 tidying.writes [], .tryCommit 1, .append 1, .appended 1 none, .commitDone 1, .drop 1,
    .collectGarbage, .prune 0]

def tidyTrace : List Event :=
  [.began 0 .transaction 0, .wrote 0 [101] (some [1]), .wrote 0 [120] (some [2]),
    .allocated tidied, .committed tidied, .appending tidied, .appended tidied none,
    .reported tidied, .returned 0 (.ok 1), .opened [tidied], .began 1 .transaction 1,
    .wrote 1 [101] none, .wrote 1 [120] (some [3]), .allocated tidying, .committed tidying,
    .appending tidying, .appended tidying none, .reported tidying, .returned 1 (.ok 2),
    .swept 2, .pruned 0 0]

theorem exec_tidyRun : (Trace.exec Sys.step .create tidyRun).map (Prod.map id fun s =>
    (s.inner.store.versionCount, s.reclaimed, s.inner.collectGarbage.2,
      decide (s.handles = [.closed, .closed] ∧ s.inner.collectGarbage.1.store.keys = [[120]]))) =
      some (tidyTrace, 2, 2, 1, true) := by
  decide +kernel

theorem recoverable_tidyTrace : Recoverable tidyTrace := fun _ a ha => by
  simp only [tidyTrace, List.mem_cons, Event.committed.injEq, reduceCtorEq, List.not_mem_nil,
    false_or, or_false] at ha
  rcases ha with rfl | rfl <;> decide

theorem versions_accounted_tidy : ∃ s, Run .create tidyTrace s ∧ s.inner.store.versionCount = 2 ∧
    s.reclaimed = 2 ∧ s.inner.store.versionCount + s.reclaimed = installed tidyTrace :=
  have ⟨s, hrun, hs⟩ := run_of_exec exec_tidyRun
  ⟨s, hrun, congrArg Prod.fst hs, congrArg (·.2.1) hs,
    versions_accounted (.inr rfl) hrun (by decide) recoverable_tidyTrace⟩

/-! ## At rest -/

/-- With no handle, the low watermark is the watermark. -/
theorem Registered.lowWatermark_eq (hreg : Registered s) (hclosed : ∀ h, s.handle h = .closed) :
    s.inner.oracle.lowWatermark = s.inner.readTs := by
  have hnone : ∀ r, s.readersAt r = 0 := fun r => by
    by_contra hne
    obtain ⟨h, hr⟩ := readersAt_pos_iff.1 (Nat.pos_of_ne_zero hne)
    rw [hclosed h] at hr
    cases hr
  rw [Oracle.lowWatermark]
  cases hmin : s.inner.oracle.readers.keys.min? with
  | none => rfl
  | some m =>
    have hmem := AList.mem_keys.2 (List.min?_eq_some_iff.1 hmin).1
    exact absurd (hreg.registers.mem_iff.1 hmem) (by rw [hnone]; exact lt_irrefl 0)

theorem Sys.quiescent_of_closed (hclosed : ∀ h, s.handle h = .closed) : s.Quiescent :=
  fun x hx => by
    obtain ⟨h, hlt, rfl⟩ := List.mem_iff_getElem.1 hx
    have hh := hclosed h
    rw [Sys.handle, List.getD_eq_getElem _ _ hlt] at hh
    rw [hh]
    rfl

/-- With no attempt underway, no version is above the watermark. -/
theorem Reached.le_readTs (hr : Reached tr s) (hq : s.Quiescent) (k : Key) :
    ∀ v ∈ s.inner.store.chain k, v.commitTs ≤ s.inner.readTs := by
  intro v hv
  obtain ⟨w, -, hp⟩ := hr.chains k
  obtain ⟨a, ha, -, heq⟩ := mem_versions.1 (hp.mem hv)
  rw [← heq]
  exact (hr.commit_le a ha).trans_eq (hr.tracks.readTs_eq hq.not_holds).symm

/-- With no handle, a garbage collection leaves of a key the value that the history left, and
    of a deleted key nothing. -/
theorem Reached.chain_collectGarbage (hr : Reached tr s) (hclosed : ∀ h, s.handle h = .closed)
    (k : Key) : (s.inner.collectGarbage.1.store.chain k).map (·.value) =
      ((current (history tr) k).map some).toList := by
  have hq := Sys.quiescent_of_closed hclosed
  have hle := hr.le_readTs hq k
  change ((s.inner.store.collectGarbage s.inner.oracle.lowWatermark).1.chain k).map _ = _
  rw [MemoryStore.chain_collectGarbage (hr.ascending k), hr.toRegistered.lowWatermark_eq hclosed,
    prune_of_forall_le hle, ← hr.get_quiescent hq, MemoryStore.get_eq (hr.ascending k).sorted,
    visible, upTo_eq_self hle]
  cases hlast : (s.inner.store.chain k).getLast? with
  | none => rfl
  | some v => cases hval : v.value <;> simp [hval, Option.filter]

/-- The store holds the map that the history left, and nothing else. -/
structure Minimal (H : List Attempt) (store : MemoryStore) : Prop where
  /-- A key has a version if it has a value, and that version only. -/
  chain : ∀ k, (store.chain k).map (·.value) = ((current H k).map some).toList
  /-- No key is in two shards. -/
  nodup : store.keys.Nodup
  mem_keys : ∀ k, k ∈ store.keys ↔ current H k ≠ none
  keyCount : store.keyCount = store.keys.length
  versionCount : store.versionCount = store.keyCount

theorem MemoryStore.Housed.minimal (h : store.Housed) {H : List Attempt}
    (hchain : ∀ k, (store.chain k).map (·.value) = ((current H k).map some).toList) :
    Minimal H store := by
  have hone : ∀ i k c, (store.chains i).lookup k = some c → c.length ≤ 1 := fun i k c hc => by
    have hhome := h.home i k (AList.lookup_isSome.1 (Option.isSome_of_eq_some hc))
    have hlen := congrArg List.length (hchain k)
    rw [MemoryStore.chain, hhome, hc, Option.getD_some, List.length_map] at hlen
    rw [hlen]
    cases current H k <;> simp
  refine ⟨hchain, h.nodup_keys, fun k => ?_, store.keyCount_eq, ?_⟩
  · rw [h.mem_keys, ne_eq, ← @List.map_eq_nil_iff _ _ Version.value, hchain]
    cases current H k <;> simp
  · rw [h.versionCount_eq hone, store.keyCount_eq]

/-- Once every handle is dropped, a garbage collection leaves the map that the history left, and
    nothing else: all the other versions that were ever installed have been counted. -/
theorem collected_at_rest (h₀ : s₀.Fresh) (hrun : Run s₀ tr s) (hlt : allocations tr < 2 ^ 64)
    (hfit : Recoverable tr) (hclosed : ∀ h, s.handle h = .closed) {inner : Inner} {n : ℕ}
    (hcollect : s.inner.collectGarbage = (inner, n)) : Minimal (history tr) inner.store ∧
      n + s.reclaimed + inner.store.keyCount = installed tr := by
  have hr := reached_of_run h₀ hrun hlt hfit
  have hacc := accounted_of_run h₀ hrun hlt hfit
  have hordered := hacc.housed.ordered fun k => (hr.ascending k).sorted
  have hhoused := hacc.housed.collectGarbage hordered s.inner.oracle.lowWatermark
  have hcount := MemoryStore.versionCount_collectGarbage hordered s.inner.oracle.lowWatermark
  have hstore : (s.inner.store.collectGarbage s.inner.oracle.lowWatermark).1 = inner.store :=
    congrArg (fun p : Inner × ℕ => p.1.store) hcollect
  have hn : (s.inner.store.collectGarbage s.inner.oracle.lowWatermark).2 = n :=
    congrArg Prod.snd hcollect
  have hchain := hr.chain_collectGarbage hclosed
  rw [hcollect] at hchain
  rw [hstore] at hhoused hcount
  have hminimal := hhoused.minimal hchain
  refine ⟨hminimal, ?_⟩
  rw [← hminimal.versionCount, ← hacc.count, ← hcount, hn]
  omega

theorem collected_at_rest_tidy : ∃ s inner n, Run .create tidyTrace s ∧
    s.inner.collectGarbage = (inner, n) ∧ n = 1 ∧ inner.store.keys = [[120]] ∧
    Minimal (history tidyTrace) inner.store ∧
    n + s.reclaimed + inner.store.keyCount = installed tidyTrace := by
  obtain ⟨s, hrun, hs⟩ := run_of_exec exec_tidyRun
  obtain ⟨hhandles, hkeys⟩ := of_decide_eq_true (congrArg (·.2.2.2) hs)
  have hclosed : ∀ h, s.handle h = .closed := fun h => by
    rw [Sys.handle, hhandles]
    rcases h with _ | _ | h <;> rfl
  exact ⟨s, _, _, hrun, rfl, congrArg (·.2.2.1) hs, hkeys,
    collected_at_rest (.inr rfl) hrun (by decide) recoverable_tidyTrace hclosed rfl⟩

end TxnDb
