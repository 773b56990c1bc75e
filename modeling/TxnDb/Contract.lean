import Mathlib.Data.Set.Insert
import TxnDb.Flat
import TxnDb.Locking

/-!
# The contract of a version store

A version store is specified by what it holds, a set of versions for each key
(`VersionSets`), and not by how the versions are arranged: what a read returns
is the value of the newest version at or below its timestamp
(`VersionSets.Reads`), a commit is in conflict if there is a version above its
snapshot of any key it writes or validates (`VersionSets.Conflicts`), and adds
one version to each key it writes.

The store searches its chains, and looks at the last version of a chain only; it
meets the contract as long as the chains are in ascending order
(`MemoryStore.meets_contract`), which commits keep them in. A commit pushes its
versions in place: that one in conflict leaves every chain as it was is said of its
program (`CommitCall.prog`), which checks all its keys before it pushes.
-/

namespace TxnDb

open Mvcc

/-- The versions of the keys. -/
abbrev VersionSets := Key → Set Version

namespace VersionSets

/-- A read of `k` at `r` returns `value`: that of the newest version at or below `r`, or
    `none` if there is no such version. -/
def Reads (S : VersionSets) (k : Key) (r : ℕ) (value : Option Value) : Prop :=
  (∃ v ∈ S k, v.commitTs ≤ r ∧ (∀ u ∈ S k, u.commitTs ≤ r → u.commitTs ≤ v.commitTs) ∧
    value = v.value) ∨ ((∀ u ∈ S k, r < u.commitTs) ∧ value = none)

/-- A key written or validated has a version above `r`. -/
def Conflicts (S : VersionSets) (r : ℕ) (writes : List WriteEntry) (reads : List Key) : Prop :=
  ∃ k, (k ∈ writes.keys ∨ k ∈ reads) ∧ ∃ v ∈ S k, r < v.commitTs

end VersionSets

namespace MemoryStore

variable {s : MemoryStore} {k : Key} {r c : ℕ} {writes : List WriteEntry} {reads : List Key}

/-- The versions the store holds. -/
def versions (s : MemoryStore) : VersionSets := fun k => {v | v ∈ s.chain k}

@[simp] theorem mem_versions {v : Version} : v ∈ s.versions k ↔ v ∈ s.chain k := Iff.rfl

/-- A read returns what the versions say. -/
theorem get_eq_iff (hs : Ascending (s.chain k)) {value : Option Value} :
    s.get k r = value ↔ s.versions.Reads k r value := by
  rw [get_eq hs.sorted]
  constructor
  · rintro rfl
    rcases hs.visible_cases r with ⟨v, hv, hr, hmax, heq⟩ | ⟨hnone, heq⟩
    · exact .inl ⟨v, hv, hr, hmax, heq⟩
    · exact .inr ⟨hnone, heq⟩
  · rintro (⟨v, hv, hr, hmax, rfl⟩ | ⟨hnone, rfl⟩)
    · exact hs.visible_eq hv hr hmax
    · rw [visible, upTo_eq_nil hnone]
      rfl

/-- The last versions tell whether there is a conflict. -/
theorem isSome_conflict?_iff (hs : ∀ k, Ascending (s.chain k)) :
    (s.conflict? r writes reads).isSome ↔ s.versions.Conflicts r writes reads := by
  rw [conflict?, List.find?_isSome]
  refine exists_congr fun k => ?_
  rw [List.mem_append, newerThan_iff (hs k)]
  rfl

/-- A key that is not written keeps its chain. -/
theorem installRecovered_chain_of_not_mem (hk : k ∉ writes.keys) :
    (s.installRecovered c writes).chain k = s.chain k := by
  rw [installRecovered_chain, List.lookupAll_eq_nil.2 fun v hv => hk (List.mem_keys_of_mem hv),
    List.map_nil, List.append_nil]

/-- A key that is written once gets one version. -/
theorem installRecovered_chain_of_mem {value : Option Value} (hnd : writes.NodupKeys)
    (hk : ⟨k, value⟩ ∈ writes) :
    (s.installRecovered c writes).chain k = s.chain k ++ [⟨c, value⟩] := by
  rw [installRecovered_chain, List.lookupAll_eq_dlookup k hnd, List.mem_dlookup hnd hk]
  rfl

/-- Above the snapshot of a commit without conflict, its versions keep the chains ascending. -/
theorem ascending_installRecovered (hs : ∀ k, Ascending (s.chain k)) (hnd : writes.NodupKeys)
    (hno : ¬s.versions.Conflicts r writes reads) (hrc : r < c) (k : Key) :
    Ascending ((s.installRecovered c writes).chain k) := by
  by_cases hk : k ∈ writes.keys
  · obtain ⟨value, hmem⟩ := List.exists_of_mem_keys hk
    rw [installRecovered_chain_of_mem hnd hmem]
    refine (hs k).append_singleton fun u hu => ?_
    have hur : u.commitTs ≤ r := by
      by_contra hlt
      exact hno ⟨k, .inl hk, u, hu, not_le.1 hlt⟩
    exact hur.trans_lt hrc
  · rw [installRecovered_chain_of_not_mem hk]
    exact hs k

/-- The commits of `writes` and `writes'`, which validate `reads` and `reads'`, both succeed or
    are both in conflict, and leave the same chains. -/
def SameCommit (s : MemoryStore) (r c : ℕ) (writes writes' : List WriteEntry)
    (reads reads' : List Key) : Prop :=
  ∃ s₁ s₂ result₁ result₂, s.call (.tryCommit r c writes reads) = some (s₁, .committed result₁) ∧
    s.call (.tryCommit r c writes' reads') = some (s₂, .committed result₂) ∧
    ((result₁ = .ok () ∧ result₂ = .ok ()) ∨
      ∃ n₁ n₂, result₁ = .error (.conflict n₁) ∧ result₂ = .error (.conflict n₂)) ∧
    ∀ k, s₂.chain k = s₁.chain k

/-- Commits that touch the same keys, and write the same to each, come to the same. -/
theorem sameCommit_of_keys {writes' : List WriteEntry} {reads' : List Key} (s : MemoryStore)
    (r c : ℕ) (hkeys : ∀ k, k ∈ writes.map (·.1) ++ reads ↔ k ∈ writes'.map (·.1) ++ reads')
    (hwrites : ∀ k, writes'.lookupAll k = writes.lookupAll k) :
    s.SameCommit r c writes writes' reads reads' := by
  -- the first key in conflict may be another one
  have hsame : (s.conflict? r writes' reads').isSome = (s.conflict? r writes reads).isSome := by
    rw [Bool.eq_iff_iff, conflict?, conflict?, List.find?_isSome, List.find?_isSome]
    exact exists_congr fun k => and_congr_left fun _ => (hkeys k).symm
  simp only [SameCommit, call, tryCommit_eq]
  cases hk : s.conflict? r writes reads with
  | some key =>
    rw [hk] at hsame
    obtain ⟨key', hk'⟩ := Option.isSome_iff_exists.1 hsame
    rw [hk']
    exact ⟨s, s, _, _, rfl, rfl, .inr ⟨_, _, rfl, rfl⟩, fun _ => rfl⟩
  | none =>
    rw [hk] at hsame
    rw [Option.isNone_iff_eq_none.1 (Option.isSome_eq_false_iff.1 hsame)]
    refine ⟨_, _, _, _, rfl, rfl, .inl ⟨rfl, rfl⟩, fun k => ?_⟩
    rw [installRecovered_chain, installRecovered_chain, hwrites]

/-- The store meets the contract: reads return what the sets of versions say, and a commit
    fails if they say that there is a conflict, and otherwise adds its version to each key it
    writes. In conflict, it changes nothing: no chain, by its program, executed in place. -/
theorem meets_contract (hs : ∀ k, Ascending (s.chain k)) (r c : ℕ)
    (writes : List WriteEntry) (reads : List Key) :
    (∀ k value, s.get k r = value ↔ s.versions.Reads k r value) ∧
      ∃ s' result, s.call (.tryCommit r c writes reads) = some (s', .committed result) ∧
        (CommitCall.prog s ⟨r, c, writes, reads⟩).run s.chains = (result, s'.chains) ∧
        ((∃ n, result = .error (.conflict n)) ↔ s.versions.Conflicts r writes reads) ∧
        (s.versions.Conflicts r writes reads → s' = s) ∧
        (¬s.versions.Conflicts r writes reads → result = .ok () ∧ (writes.NodupKeys →
          (∀ k value, ⟨k, value⟩ ∈ writes → s'.versions k = insert ⟨c, value⟩ (s.versions k)) ∧
          (∀ k, k ∉ writes.keys → s'.chain k = s.chain k) ∧
          (r < c → ∀ k, Ascending (s'.chain k)))) := by
  have hconflict := @isSome_conflict?_iff s r writes reads hs
  have hprog := CommitCall.run_prog s ⟨r, c, writes, reads⟩
  refine ⟨fun k value => get_eq_iff (hs k), ?_⟩
  rw [tryCommit_eq] at hprog
  rw [call, tryCommit_eq]
  -- the store fails on the first key in conflict, if there is one
  cases hc : s.conflict? r writes reads with
  | some key =>
    have hyes : s.versions.Conflicts r writes reads := hconflict.1 (by rw [hc]; rfl)
    rw [hc] at hprog
    exact ⟨s, _, rfl, hprog, ⟨fun _ => hyes, fun _ => ⟨_, rfl⟩⟩, fun _ => rfl,
      fun hno => absurd hyes hno⟩
  | none =>
    have hno : ¬s.versions.Conflicts r writes reads := fun hyes => by
      have := hconflict.2 hyes
      rw [hc] at this
      cases this
    rw [hc] at hprog
    refine ⟨_, _, rfl, hprog, ⟨?_, fun hyes => absurd hyes hno⟩, fun hyes => absurd hyes hno,
      fun _ => ⟨rfl, fun hnd => ⟨fun k value hk => ?_, fun k hk => ?_,
        fun hrc => ascending_installRecovered hs hnd hno hrc⟩⟩⟩
    · rintro ⟨n, he⟩
      cases he
    -- the version is at the end of its chain
    · ext v
      rw [Set.mem_insert_iff, mem_versions, mem_versions, installRecovered_chain_of_mem hnd hk,
        List.mem_append, List.mem_singleton, or_comm]
    · exact installRecovered_chain_of_not_mem hk

/-- A commit at the last timestamp there is, of two keys of which one has a version. -/
theorem meets_contract_last : ∃ s' : MemoryStore,
    (new.installRecovered 1 [⟨[120], some [1]⟩]).call (.tryCommit (2 ^ 64 - 2) (2 ^ 64 - 1)
        [⟨[120], none⟩, ⟨[121], some [2]⟩] []) = some (s', .committed (.ok ())) ∧
      s'.versions [120] = insert ⟨2 ^ 64 - 1, none⟩
        ((new.installRecovered 1 [⟨[120], some [1]⟩]).versions [120]) ∧
      ∀ k, Ascending (s'.chain k) := by
  have hchain : ∀ k, (new.installRecovered 1 [⟨[120], some [1]⟩]).chain k =
      (([⟨[120], some [1]⟩] : List WriteEntry).lookupAll k).map (⟨1, ·⟩) := fun k => by
    rw [installRecovered_chain, chain_new, List.nil_append]
  have hs : ∀ k, Ascending ((new.installRecovered 1 [⟨[120], some [1]⟩]).chain k) := fun k => by
    rw [hchain, List.lookupAll_eq_dlookup k (by simp)]
    cases ([⟨[120], some [1]⟩] : List WriteEntry).dlookup k with
    | none => exact .nil
    | some value => exact List.pairwise_singleton _ _
  obtain ⟨-, s', result, hcall, -, -, -, hok⟩ := meets_contract hs (2 ^ 64 - 2) (2 ^ 64 - 1)
    [⟨[120], none⟩, ⟨[121], some [2]⟩] []
  have hno : ¬(new.installRecovered 1 [⟨[120], some [1]⟩]).versions.Conflicts (2 ^ 64 - 2)
      [⟨[120], none⟩, ⟨[121], some [2]⟩] [] := by
    rintro ⟨k, -, v, hv, hlt⟩
    rw [mem_versions, hchain] at hv
    obtain ⟨value, -, rfl⟩ := List.mem_map.1 hv
    exact absurd hlt (show ¬2 ^ 64 - 2 < 1 by decide)
  obtain ⟨rfl, hwrites⟩ := hok hno
  obtain ⟨hadd, -, hasc⟩ := hwrites (by simp)
  exact ⟨s', hcall, hadd [120] none (by simp), hasc (by decide)⟩

end MemoryStore

end TxnDb
