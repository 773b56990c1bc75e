import Mathlib.Algebra.BigOperators.Group.List.Basic
import Mathlib.Data.List.GetD
import TxnDb.Store

/-!
# Garbage collection

What garbage collection makes of a store whose chains are in ascending order,
perhaps with equal timestamps (`MemoryStore.Ordered`): a chain is cut, or
dropped if only a tombstone is left (`retainChain_eq`), and the shards are
pruned one after the other (`collectGarbage_eq`). So nothing changes at or
above the low watermark, and nothing is left below that is not to be seen
(`collectGarbage_collects`).
-/

namespace TxnDb

open Mvcc

variable {s : MemoryStore} {i n r w : ℕ} {k : Key} {c c' : List Version} {m : Chains}

/-- At or above `w`, what is left of a chain reads as the chain. -/
theorem visibleValue_retainChain (hc : Sorted c) (hr : w ≤ r) :
    visibleValue (retainChain w c).1 r = visibleValue (some c) r := by
  rw [MemoryStore.visibleValue_eq hc, ← hc.visible_cut hr]
  rcases retainChain_eq hc w with ⟨⟨v, hv, hvw, hnone⟩, heq⟩ | ⟨-, heq, -⟩
  · rw [heq, hv, visible, upTo_eq_self (by simpa using hvw.trans hr)]
    exact hnone.symm
  · rw [heq, MemoryStore.visibleValue_eq (hc.cut w)]

/-- At or above `w`, what is left of a chain is as new as the chain. -/
theorem newerThan_retainChain (hc : Sorted c) (hr : w ≤ r) :
    newerThan (retainChain w c).1 r = newerThan (some c) r := by
  have hlast : newerThan (some c) r = newerThan (some (cut w c)) r := by
    rw [newerThan, newerThan, Option.bind_some, Option.bind_some, getLast?_cut]
  rw [hlast]
  rcases retainChain_eq hc w with ⟨⟨v, hv, hvw, -⟩, heq⟩ | ⟨-, heq, -⟩
  · rw [heq, hv]
    exact (decide_eq_false (not_lt.2 (hvw.trans hr))).symm
  · rw [heq]

/-! ## The shards -/

namespace Chains

/-- What is left of the chains of a shard. -/
def collect (w : ℕ) (m : Chains) : Chains := m.retain fun _ c => (retainChain w c).1

/-- The number of versions reclaimed from a shard. -/
def reclaimed (w : ℕ) (m : Chains) : ℕ := (m.entries.map fun e => (retainChain w e.2).2).sum

/-- The number of versions in a shard. -/
def versionCount (m : Chains) : ℕ := (m.entries.map fun e => e.2.length).sum

/-- The chains of a shard are in ascending order. -/
def Ordered (m : Chains) : Prop := ∀ k c, m.lookup k = some c → Sorted c

theorem Ordered.sorted (h : m.Ordered) {e : (_ : Key) × List Version} (he : e ∈ m.entries) :
    Sorted e.2 := h e.1 e.2 (AList.mem_lookup_iff.2 he)

theorem lookup_collect (m : Chains) (w : ℕ) (k : Key) :
    (m.collect w).lookup k = (m.lookup k).bind fun c => (retainChain w c).1 :=
  AList.lookup_retain ..

/-- What is left of a shard is cut, and alive. -/
theorem Ordered.of_lookup_collect (h : m.Ordered) (hk : (m.collect w).lookup k = some c') :
    ∃ c, m.lookup k = some c ∧ Sorted c ∧ c' = cut w c ∧ ¬Dead w c' := by
  rw [lookup_collect, Option.bind_eq_some_iff] at hk
  obtain ⟨c, hk, hc⟩ := hk
  have hs := h k c hk
  rcases retainChain_eq hs w with ⟨-, heq⟩ | ⟨hlive, heq, -⟩
  · rw [heq] at hc
    cases hc
  · obtain rfl := Option.some.inj (heq.symm.trans hc)
    exact ⟨c, hk, hs, rfl, hlive⟩

/-- The versions reclaimed are those that are gone. -/
theorem Ordered.versionCount_collect (h : m.Ordered) (w : ℕ) :
    (m.collect w).versionCount + m.reclaimed w = m.versionCount := by
  have hsorted : ∀ e ∈ m.entries, Sorted e.2 := fun e he => h.sorted he
  change (((m.entries.filterMap _).map _).sum + (m.entries.map _).sum) = (m.entries.map _).sum
  generalize m.entries = l at hsorted ⊢
  induction l with
  | nil => rfl
  | cons e l ih =>
    have ih := ih fun e' he' => hsorted e' (List.mem_cons_of_mem _ he')
    beta_reduce at ih
    rw [List.map_cons, List.sum_cons, List.map_cons, List.sum_cons, List.filterMap_cons]
    rcases retainChain_eq (hsorted e List.mem_cons_self) w with ⟨-, heq⟩ | ⟨-, heq, hlen⟩
    · simp only [heq, Option.map_none]
      omega
    · simp only [heq, Option.map_some, List.map_cons, List.sum_cons]
      omega

/-- What was left is left again, and nothing is reclaimed. -/
theorem Ordered.collect_collect (h : m.Ordered) (w : ℕ) :
    (m.collect w).collect w = m.collect w ∧ (m.collect w).reclaimed w = 0 := by
  have hkept : ∀ e ∈ (m.collect w).entries, retainChain w e.2 = (some e.2, 0) := fun e he => by
    obtain ⟨e', he', heq⟩ := List.mem_filterMap.1 he
    obtain ⟨c, hc, rfl⟩ := Option.map_eq_some_iff.1 heq
    have hs := h.sorted he'
    simp only at hc
    rcases retainChain_eq hs w with ⟨-, hr⟩ | ⟨hlive, hr, -⟩
    · rw [hr] at hc
      cases hc
    · rw [hr] at hc
      obtain rfl := Option.some.inj hc
      -- what was left is cut no more, and not dead
      rcases retainChain_eq (hs.cut w) w with ⟨hdead, -⟩ | ⟨-, hr', hlen⟩
      · rw [hs.cut_cut] at hdead
        exact absurd hdead hlive
      · rw [hs.cut_cut] at hr' hlen
        exact Prod.ext hr' (by simpa using hlen)
  constructor
  · refine AList.ext ?_
    conv_rhs => rw [← List.filterMap_some (l := (m.collect w).entries)]
    refine List.filterMap_congr fun e he => ?_
    simp only [hkept e he, Option.map_some]
  · refine List.sum_eq_zero fun x hx => ?_
    obtain ⟨e, he, rfl⟩ := List.mem_map.1 hx
    rw [hkept e he]

end Chains

namespace MemoryStore

/-- The chains of all shards are in ascending order. -/
def Ordered (s : MemoryStore) : Prop := ∀ i, (s.chains i).Ordered

/-- The number of versions in the store. -/
def versionCount (s : MemoryStore) : ℕ := (s.shards.map Chains.versionCount).sum

theorem ext_chains {s' : MemoryStore} (hmask : s'.mask = s.mask)
    (h : ∀ i, s'.chains i = s.chains i) : s' = s := by
  obtain ⟨shards, mask, hlen⟩ := s
  obtain ⟨shards', mask', hlen'⟩ := s'
  obtain rfl : mask' = mask := hmask
  obtain rfl : shards' = shards := by
    refine List.ext_getElem (hlen'.trans hlen.symm) fun i hi hi' => ?_
    have hget := h i
    rwa [chains, chains, List.getD_eq_getElem _ _ hi, List.getD_eq_getElem _ _ hi'] at hget
  rfl

/-- The shards are pruned one after the other. -/
theorem foldl_pruneShard (s : MemoryStore) (w : ℕ) (hn : n ≤ s.shards.length) :
    ∃ s', (List.range n).foldl (fun (s, reclaimed) i =>
        ((s.pruneShard w i).1, reclaimed + (s.pruneShard w i).2)) (s, 0) =
        (s', ((List.range n).map fun i => (s.chains i).reclaimed w).sum) ∧ s'.mask = s.mask ∧
      ∀ i, s'.chains i = if i < n then (s.chains i).collect w else s.chains i := by
  induction n with
  | zero => exact ⟨s, rfl, rfl, fun i => rfl⟩
  | succ n ih =>
    obtain ⟨s', hfold, hmask, hchains⟩ := ih (Nat.le_of_succ_le hn)
    have hlt : n < s'.shards.length := by
      rw [s'.length_eq, hmask, ← s.length_eq]
      exact hn
    refine ⟨(s'.pruneShard w n).1, ?_, hmask, fun i => ?_⟩
    · rw [List.range_succ, List.foldl_append, hfold, List.map_append, List.sum_append]
      simp only [List.foldl_cons, List.foldl_nil, List.map_cons, List.map_nil, List.sum_singleton]
      rw [pruneShard, hchains, if_neg (lt_irrefl n)]
      rfl
    · rw [pruneShard, chains_modifyChains hlt, hchains]
      rcases lt_trichotomy i n with hi | rfl | hi
      · rw [if_neg hi.ne', if_pos hi, if_pos (hi.trans (Nat.lt_succ_self n))]
      · rw [if_pos rfl, if_neg (lt_irrefl i), if_pos (Nat.lt_succ_self i)]
        rfl
      · rw [if_neg hi.ne, if_neg (not_lt.2 hi.le), if_neg (not_lt.2 hi)]

theorem chains_of_length_le (hi : s.shards.length ≤ i) : s.chains i = ∅ :=
  List.getD_eq_default _ _ hi

theorem shards_eq (s : MemoryStore) : s.shards = (List.range s.shards.length).map s.chains := by
  refine List.ext_getElem (by simp) fun i hi _ => ?_
  rw [List.getElem_map, List.getElem_range, chains, List.getD_eq_getElem _ _ hi]

theorem ordered_iff : s.Ordered ↔ ∀ m ∈ s.shards, ∀ e ∈ m.entries, Sorted e.2 := by
  constructor
  · intro h m hm e he
    rw [s.shards_eq] at hm
    obtain ⟨i, -, rfl⟩ := List.mem_map.1 hm
    exact (h i).sorted he
  · intro h i k c hk
    rcases lt_or_ge i s.shards.length with hi | hi
    · have hmem : s.chains i ∈ s.shards := by
        rw [chains, List.getD_eq_getElem _ _ hi]
        exact List.getElem_mem hi
      exact h _ hmem ⟨k, c⟩ (AList.mem_lookup_iff.1 hk)
    · rw [chains_of_length_le hi] at hk
      cases hk

instance (c : List Version) : Decidable (Sorted c) :=
  inferInstanceAs (Decidable (c.Pairwise (·.commitTs ≤ ·.commitTs)))

instance (s : MemoryStore) : Decidable s.Ordered := decidable_of_iff' _ ordered_iff

theorem collectGarbage_eq (s : MemoryStore) (w : ℕ) :
    (s.collectGarbage w).1.mask = s.mask ∧
      (∀ i, (s.collectGarbage w).1.chains i = (s.chains i).collect w) ∧
      (s.collectGarbage w).2 = (s.shards.map (Chains.reclaimed w)).sum := by
  obtain ⟨s', hfold, hmask, hchains⟩ := s.foldl_pruneShard w le_rfl
  rw [collectGarbage, hfold]
  refine ⟨hmask, fun i => ?_, ?_⟩
  · rw [hchains]
    split_ifs with hi
    · rfl
    · rw [chains_of_length_le (not_lt.1 hi)]
      rfl
  · conv_rhs => rw [s.shards_eq, List.map_map]
    rfl

variable {s' : MemoryStore}

theorem shardOf_collectGarbage : (s.collectGarbage w).1.shardOf k = s.shardOf k :=
  shardOf_congr (s.collectGarbage_eq w).1

theorem lookup_collectGarbage : ((s.collectGarbage w).1.chains i).lookup k =
    ((s.chains i).lookup k).bind fun c => (retainChain w c).1 := by
  rw [(s.collectGarbage_eq w).2.1, Chains.lookup_collect]

/-- The versions reclaimed are those that are gone, shard by shard. -/
theorem versionCount_collectGarbage (h : s.Ordered) (w : ℕ) :
    (s.collectGarbage w).1.versionCount + (s.collectGarbage w).2 = s.versionCount := by
  obtain ⟨hmask, hchains, hcount⟩ := s.collectGarbage_eq w
  have hlen : (s.collectGarbage w).1.shards.length = s.shards.length := by
    rw [length_eq, length_eq, hmask]
  rw [versionCount, versionCount, hcount, shards_eq, hlen, s.shards_eq]
  simp only [List.map_map, List.length_map, List.length_range]
  rw [← List.sum_map_add]
  refine congrArg List.sum (List.map_congr_left fun i _ => ?_)
  simp only [Function.comp_apply, hchains]
  exact (h i).versionCount_collect w

/-- Two stores whose keys are equally new are equally in conflict. -/
theorem tryCommit_eq_error_congr {c : ℕ} {writes : List WriteEntry} {reads : List Key}
    {e : TxnError} (h : ∀ k, newerThan (some (s'.chain k)) r = newerThan (some (s.chain k)) r) :
    s'.tryCommit r c writes reads = .error e ↔ s.tryCommit r c writes reads = .error e := by
  have hconflict : s'.conflict? r writes reads = s.conflict? r writes reads := by
    simp only [conflict?, h]
  have hiff : ∀ s : MemoryStore, s.tryCommit r c writes reads = .error e ↔
      ∃ k, s.conflict? r writes reads = some k ∧ e = .conflict k.length := fun s => by
    rcases s.tryCommit_commits r c writes reads with ⟨k, hk, heq⟩ | ⟨s', hnone, heq, -⟩
    · simp [hk, heq, eq_comm]
    · simp [hnone, heq]
  rw [hiff, hiff, hconflict]

/-- The store `s'` is what garbage collection below `w` leaves of `s`, having
    reclaimed `n` versions. -/
structure Collects (w : ℕ) (s s' : MemoryStore) (n : ℕ) : Prop where
  /-- At or above `w`, reads return what they did. -/
  get : ∀ k r, w ≤ r → s'.get k r = s.get k r
  /-- At or above `w`, commits fail as they did. -/
  conflicts : ∀ r c writes reads e, w ≤ r →
    (s'.tryCommit r c writes reads = .error e ↔ s.tryCommit r c writes reads = .error e)
  /-- A chain is a last part of what it was, and so still in ascending order. -/
  suffix : ∀ i k c', (s'.chains i).lookup k = some c' →
    Sorted c' ∧ ∃ c, (s.chains i).lookup k = some c ∧ c' <:+ c
  above : ∀ i k, (((s'.chains i).lookup k).getD []).filter (w < ·.commitTs) =
    (((s.chains i).lookup k).getD []).filter (w < ·.commitTs)
  /-- No chain has two versions at or below `w`. -/
  length_upTo : ∀ i k c', (s'.chains i).lookup k = some c' → (upTo c' w).length ≤ 1
  /-- No chain is only a tombstone at or below `w`. -/
  alive : ∀ i k c', (s'.chains i).lookup k = some c' → ¬Dead w c'
  count : s'.versionCount + n = s.versionCount
  again : s'.collectGarbage w = (s', 0)

/-- Garbage collection is invisible at or above its low watermark, and complete below. -/
theorem collectGarbage_collects (h : s.Ordered) (w : ℕ) :
    Collects w s (s.collectGarbage w).1 (s.collectGarbage w).2 := by
  obtain ⟨-, hchains, -⟩ := s.collectGarbage_eq w
  have hlookup : ∀ {i k c'}, ((s.collectGarbage w).1.chains i).lookup k = some c' →
      ∃ c, (s.chains i).lookup k = some c ∧ Sorted c ∧ c' = cut w c ∧ ¬Dead w c' :=
    fun {i k c'} hk => (h i).of_lookup_collect (hchains i ▸ hk)
  refine ⟨fun k r hr => ?_, fun r c writes reads e hr => tryCommit_eq_error_congr fun k => ?_,
    fun i k c' hk => ?_, fun i k => ?_, fun i k c' hk => ?_, fun i k c' hk => ?_, ?_, ?_⟩
  · rw [get, get, shardOf_collectGarbage, lookup_collectGarbage]
    cases hk : (s.chains (s.shardOf k)).lookup k with
    | none => rfl
    | some c => exact visibleValue_retainChain (h _ k c hk) hr
  · rw [← newerThan_lookup, ← newerThan_lookup, shardOf_collectGarbage, lookup_collectGarbage]
    cases hk : (s.chains (s.shardOf k)).lookup k with
    | none => rfl
    | some c => exact newerThan_retainChain (h _ k c hk) hr
  · obtain ⟨c, hc, hs, rfl, -⟩ := hlookup hk
    exact ⟨hs.cut w, c, hc, List.drop_suffix _ _⟩
  · rw [lookup_collectGarbage]
    cases hk : (s.chains i).lookup k with
    | none => rfl
    | some c =>
      have hs := h i k c hk
      rw [Option.bind_some, Option.getD_some, ← hs.filter_cut]
      -- a chain is dropped only if all its versions are at or below `w`
      rcases retainChain_eq hs w with ⟨⟨v, hv, hvw, -⟩, heq⟩ | ⟨-, heq, -⟩
      · rw [heq, hv]
        simp [hvw]
      · rw [heq]
        rfl
  · obtain ⟨c, -, hs, rfl, -⟩ := hlookup hk
    obtain ⟨-, -, -, hlen, -⟩ := hs.cut_cases w
    exact hlen
  · obtain ⟨-, -, -, -, hlive⟩ := hlookup hk
    exact hlive
  · exact versionCount_collectGarbage h w
  · -- a chain that was cut is not cut any more
    obtain ⟨hmask', hchains', hcount'⟩ := (s.collectGarbage w).1.collectGarbage_eq w
    refine Prod.ext (ext_chains hmask' fun i => ?_) ?_
    · rw [hchains', hchains, ((h i).collect_collect w).1]
    · rw [hcount', shards_eq, List.map_map]
      refine List.sum_eq_zero fun x hx => ?_
      obtain ⟨i, -, rfl⟩ := List.mem_map.1 hx
      simp only [Function.comp_apply, hchains, ((h i).collect_collect w).2]

/-- A store of one shard, with a key that was deleted, and written again at the same
    timestamp as another one. -/
def rewritten : MemoryStore :=
  ((((withShards 1).installRecovered 1 [⟨[120], some [1]⟩]).installRecovered 2
    [⟨[120], none⟩, ⟨[121], some [1]⟩]).installRecovered 3 [⟨[121], none⟩]).installRecovered 5
      [⟨[120], some [2]⟩, ⟨[120], some [3]⟩]

/-- Below `3`, the first value of one key is reclaimed, and the whole other key. -/
theorem collectGarbage_collects_rewritten :
    (rewritten.collectGarbage 3).2 = 3 ∧ Collects 3 rewritten (rewritten.collectGarbage 3).1 3 := by
  have hcount : (rewritten.collectGarbage 3).2 = 3 := by decide +kernel
  exact ⟨hcount, hcount ▸ collectGarbage_collects (by decide +kernel) 3⟩

end MemoryStore

end TxnDb
