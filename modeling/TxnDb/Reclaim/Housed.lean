import TxnDb.Stores

/-!
# Counting versions

What each operation of the store makes of the number of versions in it (`versionCount`). Every
shard has the chains of its own keys only, and no empty one (`MemoryStore.Housed`), so that the
keys of a shard can be counted.
-/

namespace TxnDb

open Mvcc

variable {store : MemoryStore} {i w : ℕ} {k key : Key} {v : Version}

/-- The entry of a key is a part of the sum. -/
theorem sum_kerase (g : List Version → ℕ) (hg : g [] = 0) {l : List ((_ : Key) × List Version)}
    (k : Key) : ((l.kerase k).map fun e => g e.2).sum + g ((l.dlookup k).getD []) =
      (l.map fun e => g e.2).sum := by
  induction l with
  | nil => simpa using hg
  | cons e l ih =>
    by_cases hk : k = e.1
    · subst hk
      rw [List.kerase_cons_eq rfl, List.dlookup_cons_eq, List.map_cons, List.sum_cons]
      exact Nat.add_comm _ _
    · rw [List.kerase_cons_ne hk, List.dlookup_cons_ne _ _ hk, List.map_cons, List.sum_cons,
        List.map_cons, List.sum_cons, ← ih]
      omega

theorem Chains.versionCount_push (m : Chains) :
    (m.push key v).versionCount = m.versionCount + 1 := by
  have hsum := sum_kerase List.length rfl (l := m.entries) key
  rw [Chains.push, versionCount, versionCount, AList.entries_insert, List.map_cons, List.sum_cons,
    List.length_append, ← hsum]
  change (((m.entries.dlookup key).getD []).length + 1 + _) = _
  omega

namespace MemoryStore

theorem versionCount_modifyChains (f : Chains → Chains) (hi : i < store.shards.length) :
    (store.modifyChains i f).versionCount + (store.chains i).versionCount =
      store.versionCount + (f (store.chains i)).versionCount := by
  rw [chains, List.getD_eq_getElem _ _ hi]
  exact List.sum_map_modify Chains.versionCount f hi

/-- Every write that is installed is a version. -/
theorem versionCount_installRecovered (store : MemoryStore) (c : ℕ) (writes : List WriteEntry) :
    (store.installRecovered c writes).versionCount = store.versionCount + writes.length := by
  induction writes generalizing store with
  | nil => rfl
  | cons e writes ih =>
    have hpush := versionCount_modifyChains (Chains.push e.1 ⟨c, e.2⟩) (store.shardOf_lt e.1)
    rw [Chains.versionCount_push] at hpush
    have ih := ih (store.modifyChains (store.shardOf e.1) (Chains.push e.1 ⟨c, e.2⟩))
    rw [List.length_cons]
    change ((store.modifyChains _ _).installRecovered c writes).versionCount = _
    omega

/-- Every shard has the chains of its own keys only, and none that is empty. -/
structure Housed (store : MemoryStore) : Prop where
  home : ∀ i k, k ∈ store.chains i → store.shardOf k = i
  nonempty : ∀ i k c, (store.chains i).lookup k = some c → c ≠ []

namespace Housed

/-- A shard is changed, and gets no key of another one, nor an empty chain. -/
theorem modifyChains (h : store.Housed) {f : Chains → Chains} (hi : i < store.shards.length)
    (hf : ∀ k, k ∈ f (store.chains i) → k ∈ store.chains i ∨ store.shardOf k = i)
    (hne : ∀ k c, (f (store.chains i)).lookup k = some c → c ≠ []) :
    (store.modifyChains i f).Housed where
  home j k hk := by
    rw [chains_modifyChains hi] at hk
    rw [shardOf_congr mask_modifyChains]
    split_ifs at hk with heq
    · subst heq
      exact (hf k hk).elim (h.home i k) id
    · exact h.home j k hk
  nonempty j k c hk := by
    rw [chains_modifyChains hi] at hk
    split_ifs at hk with heq
    · subst heq
      exact hne k c hk
    · exact h.nonempty j k c hk

theorem installRecovered (h : store.Housed) (c : ℕ) (writes : List WriteEntry) :
    (store.installRecovered c writes).Housed := by
  induction writes generalizing store with
  | nil => exact h
  | cons e writes ih =>
    refine ih (h.modifyChains (store.shardOf_lt e.1) (fun k hk => ?_) fun k c hk => ?_)
    · rcases (AList.mem_insert _).1 hk with rfl | hk
      · exact .inr rfl
      · exact .inl hk
    · by_cases heq : k = e.1
      · rw [heq, Chains.push, AList.lookup_insert] at hk
        obtain rfl := Option.some.inj hk
        exact List.append_ne_nil_of_right_ne_nil _ (List.cons_ne_nil _ _)
      · rw [Chains.push, AList.lookup_insert_ne heq] at hk
        exact h.nonempty _ k c hk

/-- The chains of the keys are those of the shards. -/
theorem ordered (h : store.Housed) (hs : ∀ k, Sorted (store.chain k)) : store.Ordered :=
  fun i k c hk => by
    have hshard := h.home i k (AList.lookup_isSome.1 (Option.isSome_of_eq_some hk))
    have hchain := hs k
    rw [chain, hshard, hk] at hchain
    exact hchain

/-- What is left of a shard are chains of its keys, none empty. -/
theorem collect (h : store.Housed) (hs : (store.chains i).Ordered) {c : List Version}
    (hk : ((store.chains i).collect w).lookup k = some c) : k ∈ store.chains i ∧ c ≠ [] := by
  obtain ⟨full, hfull, -, rfl, -⟩ := hs.of_lookup_collect hk
  refine ⟨AList.lookup_isSome.1 (Option.isSome_of_eq_some hfull), fun hnil => ?_⟩
  have hlast := getLast?_cut w full
  rw [hnil] at hlast
  exact h.nonempty i k full hfull (List.getLast?_eq_none_iff.1 hlast.symm)

theorem pruneShard (h : store.Housed) (hs : (store.chains i).Ordered) (w : ℕ)
    (hi : i < store.shards.length) : (store.pruneShard w i).1.Housed := by
  refine h.modifyChains hi (fun k hk => .inl ?_) fun k c hk => (h.collect hs hk).2
  obtain ⟨c, hc⟩ := Option.isSome_iff_exists.1 (AList.lookup_isSome.2 hk)
  exact (h.collect hs hc).1

theorem collectGarbage (h : store.Housed) (hs : store.Ordered) (w : ℕ) :
    (store.collectGarbage w).1.Housed := by
  obtain ⟨-, hchains, -⟩ := store.collectGarbage_eq w
  refine ⟨fun i k hk => ?_, fun i k c hk => ?_⟩
  · rw [hchains] at hk
    obtain ⟨c, hc⟩ := Option.isSome_iff_exists.1 (AList.lookup_isSome.2 hk)
    rw [shardOf_collectGarbage]
    exact h.home i k (h.collect (hs i) hc).1
  · rw [hchains] at hk
    exact (h.collect (hs i) hk).2

end Housed

/-- The keys that have a chain. -/
def keys (store : MemoryStore) : List Key := store.shards.flatMap AList.keys

theorem keyCount_eq (store : MemoryStore) : store.keyCount = store.keys.length := by
  rw [keys, List.length_flatMap, keyCount]
  simp only [AList.keys, List.keys, List.length_map]

namespace Housed

theorem nodup_keys (h : store.Housed) : store.keys.Nodup := by
  rw [keys, store.shards_eq, List.flatMap_map]
  refine List.nodup_flatMap.2 ⟨fun i _ => AList.keys_nodup _, ?_⟩
  refine List.nodup_range.imp fun {i j} hij => List.disjoint_left.2 fun k hi hj => hij ?_
  rw [← h.home i k (AList.mem_keys.2 hi), ← h.home j k (AList.mem_keys.2 hj)]

theorem mem_keys (h : store.Housed) : k ∈ store.keys ↔ store.chain k ≠ [] := by
  rw [keys, store.shards_eq, List.flatMap_map, List.mem_flatMap, chain]
  constructor
  · rintro ⟨i, -, hi⟩
    have hk : k ∈ store.chains i := AList.mem_keys.2 hi
    obtain ⟨c, hc⟩ := Option.isSome_iff_exists.1 (AList.lookup_isSome.2 hk)
    rw [h.home i k hk, hc]
    exact h.nonempty i k c hc
  · intro hne
    refine ⟨store.shardOf k, List.mem_range.2 (store.shardOf_lt k), AList.mem_keys.1 ?_⟩
    rw [← AList.lookup_isSome]
    cases hc : (store.chains (store.shardOf k)).lookup k with
    | none => rw [hc] at hne; exact absurd rfl hne
    | some c => rfl

/-- With one version to a chain, there are as many versions as keys. -/
theorem versionCount_eq (h : store.Housed)
    (hone : ∀ i k c, (store.chains i).lookup k = some c → c.length ≤ 1) :
    store.versionCount = store.keys.length := by
  rw [← keyCount_eq, versionCount, keyCount, store.shards_eq, List.map_map, List.map_map]
  refine congrArg List.sum (List.map_congr_left fun i _ => ?_)
  have hlen : ∀ e ∈ (store.chains i).entries, e.2.length = 1 := fun e he => by
    have hk := AList.mem_lookup_iff.2 he
    have hpos := List.length_pos_of_ne_nil (h.nonempty i e.1 e.2 hk)
    exact Nat.le_antisymm (hone i e.1 e.2 hk) hpos
  simp only [Function.comp_apply, Chains.versionCount]
  rw [List.map_congr_left hlen, List.map_const', List.sum_replicate]
  exact Nat.mul_one _

end Housed

/-- What is counted when a shard is pruned is what is gone. -/
theorem versionCount_pruneShard (h : (store.chains i).Ordered) (hi : i < store.shards.length) :
    (store.pruneShard w i).1.versionCount + (store.pruneShard w i).2 = store.versionCount := by
  have hmodify := versionCount_modifyChains (Chains.collect w) hi
  have hcollect := h.versionCount_collect w
  change (store.modifyChains i (Chains.collect w)).versionCount + (store.chains i).reclaimed w = _
  omega

theorem versionCount_withShards (shards : ℕ) : (withShards shards).versionCount = 0 := by
  rw [versionCount, withShards, List.map_replicate, List.sum_replicate]
  exact mul_zero _

theorem housed_withShards (shards : ℕ) : (withShards shards).Housed where
  home := (Flattens.withShards shards).home
  nonempty i k c hk := by
    rw [chains_withShards] at hk
    cases hk

end MemoryStore

end TxnDb
