import TxnDb.Backing
import TxnDb.Invariant

/-!
# Stores of chains

A store that keeps chains in ascending order (`KeepsChains`), and does to them
what the calls say (`ChainStore`), is lawful; and it is exact
(`ExactVersionStore`): it never fails, and reports the first key in conflict, of
those written, then read (`ChainStore.exact`).
-/

namespace TxnDb

open Mvcc

variable {S : VersionSets} {k : Key} {r w c : ℕ} {writes : List WriteEntry} {reads : List Key}

/-! ## Chains -/

/-- The chains are what prunes at or below `w` leave of the versions, in ascending order. -/
def KeepsChains (chain : Key → List Version) (S : VersionSets) (w : ℕ) : Prop :=
  ∀ k, ∃ full, (∀ v, v ∈ S k ↔ v ∈ full) ∧ Ascending full ∧ Pruned w full (chain k)

namespace KeepsChains

variable {chain chain' : Key → List Version}

theorem empty (h : ∀ k, chain k = []) : KeepsChains chain (fun _ => ∅) w := fun k =>
  ⟨[], fun _ => iff_of_false id List.not_mem_nil, .nil, by rw [h]; exact Pruned.refl w []⟩

theorem ascending (h : KeepsChains chain S w) (k : Key) : Ascending (chain k) :=
  have ⟨_, _, hasc, hp⟩ := h k
  hp.ascending hasc

/-- At or above `w`, a chain gives what the versions do. -/
theorem reads_iff (h : KeepsChains chain S w) (hr : w ≤ r) {value : Option Value} :
    S.Reads k r value ↔ visible (chain k) r = value := by
  obtain ⟨full, hmem, hasc, hp⟩ := h k
  rw [VersionSets.reads_iff hmem hasc, hp.visible_eq hasc hr]

/-- At or above `w`, a chain is as new as the versions. -/
theorem newer_iff (h : KeepsChains chain S w) (hr : w ≤ r) :
    Newer (chain k) r ↔ ∃ v ∈ S k, r < v.commitTs := by
  obtain ⟨full, hmem, hasc, hp⟩ := h k
  rw [hp.newer_iff hasc hr]
  simp only [Newer, hmem]

/-- The versions of a commit that is not in conflict are appended. -/
theorem commit (h : KeepsChains chain S w) (hno : ¬S.Conflicts r writes reads) (hrc : r < c)
    (hnd : writes.NodupKeys)
    (hchain : ∀ k, chain' k = chain k ++ (writes.lookupAll k).map (⟨c, ·⟩)) :
    KeepsChains chain' (S.commit c writes) w := by
  intro k
  obtain ⟨full, hmem, hasc, hp⟩ := h k
  have hmem' : ∀ v, v ∈ S.commit c writes k ↔ v ∈ full ++ (writes.lookupAll k).map (⟨c, ·⟩) := by
    intro v
    rw [List.mem_append, List.mem_map, ← hmem]
    refine or_congr_right ⟨?_, ?_⟩
    · rintro ⟨rfl, hv⟩
      exact ⟨v.value, List.mem_lookupAll.2 hv, rfl⟩
    · rintro ⟨value, hv, rfl⟩
      exact ⟨rfl, List.mem_lookupAll.1 hv⟩
  refine ⟨_, hmem', ?_, ?_⟩
  · rw [List.lookupAll_eq_dlookup k hnd]
    cases hk : writes.dlookup k with
    | none => simpa using hasc
    | some value =>
      -- a key that is written has no version above the snapshot
      refine hasc.append_singleton fun u hu => lt_of_le_of_lt ?_ hrc
      by_contra hlt
      exact hno ⟨k, .inl (List.mem_keys_of_mem (List.of_mem_dlookup hk)), u, (hmem u).2 hu,
        not_le.1 hlt⟩
  · rw [hchain]
    refine Inv.pruned_append hp ?_
    rw [List.length_map, List.lookupAll_eq_dlookup k hnd]
    exact Option.length_toList_le

/-- Pruned chains are what a higher low watermark leaves. -/
theorem prune {low : ℕ} (h : KeepsChains chain S w)
    (hchain : ∀ k, chain' k = Mvcc.prune low (chain k)) : KeepsChains chain' S (max w low) := by
  intro k
  obtain ⟨full, hmem, hasc, hp⟩ := h k
  exact ⟨full, hmem, hasc, hchain k ▸ hp.prune hasc low⟩

end KeepsChains

/-- The first key in conflict, of those written, then read. -/
noncomputable def VersionSets.firstConflict (S : VersionSets) (r : ℕ) (writes : List WriteEntry)
    (reads : List Key) : Option Key :=
  open Classical in
  (writes.map (·.1) ++ reads).find? fun k => ∃ v ∈ S k, r < v.commitTs

/-- What a store that never fails returns of a commit: a conflict on the first key in conflict. -/
noncomputable def VersionSets.validation (S : VersionSets) (r : ℕ) (writes : List WriteEntry)
    (reads : List Key) : Except TxnError Unit :=
  match S.firstConflict r writes reads with
  | some key => .error (.conflict key.length)
  | none => .ok ()

theorem VersionSets.firstConflict_eq_none_iff :
    S.firstConflict r writes reads = none ↔ ¬S.Conflicts r writes reads := by
  rw [firstConflict, List.find?_eq_none]
  simp only [List.mem_append, decide_eq_true_eq, Conflicts, not_exists, not_and]
  exact Iff.rfl

/-- A store that never fails, and reports the first key in conflict. -/
class ExactVersionStore (σ : Type*) [VersionStore σ] extends LawfulVersionStore σ where
  get_exact {store : σ} {S : VersionSets} {w r : ℕ} {k : Key} :
    Keeps store S w → w ≤ r → ∃ value, (VersionStore.get store k r).1 = .ok value
  tryCommit_exact {store : σ} {S : VersionSets} {w r c : ℕ} {writes : List WriteEntry}
      {reads : List Key} :
    Keeps store S w → w ≤ r →
      (VersionStore.tryCommit store r c writes reads).1 = S.validation r writes reads

/-! ## Stores of chains -/

/-- The first key whose chain is newer than `r`, of those written, then read. -/
def firstNewer (chain : Key → List Version) (r : ℕ) (writes : List WriteEntry)
    (reads : List Key) : Option Key :=
  (writes.map (·.1) ++ reads).find? fun k => newerThan (some (chain k)) r

theorem KeepsChains.firstNewer_eq {chain : Key → List Version} (h : KeepsChains chain S w)
    (hr : w ≤ r) : firstNewer chain r writes reads = S.firstConflict r writes reads := by
  classical
  refine congrArg (List.find? · _) (funext fun k => ?_)
  rw [Bool.eq_iff_iff, decide_eq_true_eq, MemoryStore.newerThan_iff (h.ascending k),
    h.newer_iff hr]

/-- What a call of a store makes of chains in ascending order: a read leaves them, a commit
    leaves them if a key is newer than its snapshot, and otherwise appends its versions, and
    the collection of garbage prunes them, or leaves them. -/
structure ChainStore {σ : Type*} [VersionStore σ] (chain : σ → Key → List Version) : Prop where
  get : ∀ store k r, Ascending (chain store k) →
    (VersionStore.get store k r).1 = .ok (visible (chain store k) r) ∧
      chain (VersionStore.get store k r).2 = chain store
  conflict : ∀ store r c writes reads key, (∀ k, Ascending (chain store k)) →
    firstNewer (chain store) r writes reads = some key →
      (VersionStore.tryCommit store r c writes reads).1 = .error (.conflict key.length) ∧
        chain (VersionStore.tryCommit store r c writes reads).2 = chain store
  commit : ∀ store r c writes reads, (∀ k, Ascending (chain store k)) →
    firstNewer (chain store) r writes reads = none →
      (VersionStore.tryCommit store r c writes reads).1 = .ok () ∧
        ∀ k, chain (VersionStore.tryCommit store r c writes reads).2 k =
          chain store k ++ (writes.lookupAll k).map (⟨c, ·⟩)
  collectGarbage : ∀ store low, (∀ k, Ascending (chain store k)) →
    (∀ k, chain (VersionStore.collectGarbage store low).2 k = prune low (chain store k)) ∨
      chain (VersionStore.collectGarbage store low).2 = chain store

theorem KeepsChains.mono {chain : Key → List Version} {w' : ℕ} (h : KeepsChains chain S w)
    (hw : w ≤ w') : KeepsChains chain S w' := fun k =>
  have ⟨full, hmem, hasc, hp⟩ := h k
  ⟨full, hmem, hasc, hp.mono hw⟩

/-- A store of chains is exact. -/
@[reducible] def ChainStore.exact {σ : Type*} [VersionStore σ] {chain : σ → Key → List Version}
    (hs : ChainStore chain) : ExactVersionStore σ where
  Keeps store S w := KeepsChains (chain store) S w
  get_ok {store _ S w r k value} h hr hget := by
    have hvalue := (hs.get store k r (h.ascending k)).1
    rw [hget] at hvalue
    rw [h.reads_iff hr]
    exact (Except.ok.inj hvalue).symm
  keeps_get {store S w r k} h _ := by
    rw [(hs.get store k r (h.ascending k)).2]
    exact h
  tryCommit_ok {store _ S w r c writes reads} h hr hrc _ hnd hcommit := by
    cases hc : firstNewer (chain store) r writes reads with
    | some key =>
      have hresult := (hs.conflict store r c writes reads key h.ascending hc).1
      rw [hcommit] at hresult
      cases hresult
    | none =>
      have hchain := (hs.commit store r c writes reads h.ascending hc).2
      rw [hcommit] at hchain
      rw [h.firstNewer_eq hr] at hc
      have hno := VersionSets.firstConflict_eq_none_iff.1 hc
      exact ⟨hno, h.commit hno hrc hnd hchain⟩
  tryCommit_error {store _ S w r c writes reads e} h hr hcommit := by
    cases hc : firstNewer (chain store) r writes reads with
    | some key =>
      obtain ⟨hresult, hchain⟩ := hs.conflict store r c writes reads key h.ascending hc
      rw [hcommit] at hresult hchain
      rw [h.firstNewer_eq hr] at hc
      refine ⟨by rw [hchain]; exact h, .inl ⟨key, List.mem_append.1 (List.mem_of_find?_eq_some hc),
        ?_, Except.error.inj hresult⟩⟩
      simpa using List.find?_some hc
    | none =>
      have hresult := (hs.commit store r c writes reads h.ascending hc).1
      rw [hcommit] at hresult
      cases hresult
  keeps_collectGarbage {store S w low} h := by
    rcases hs.collectGarbage store low h.ascending with hchain | hchain
    · exact h.prune hchain
    · rw [hchain]
      exact h.mono (le_max_left _ _)
  get_exact {store S w r k} h _ := ⟨_, (hs.get store k r (h.ascending k)).1⟩
  tryCommit_exact {store S w r c writes reads} h hr := by
    rw [VersionSets.validation, ← h.firstNewer_eq hr]
    cases hc : firstNewer (chain store) r writes reads with
    | some key => exact (hs.conflict store r c writes reads key h.ascending hc).1
    | none => exact (hs.commit store r c writes reads h.ascending hc).1

end TxnDb
