import TxnDb.Format
import TxnDb.Recovery

/-!
# Reading back what was committed

A commit does not check the lengths of what it encodes for the log, which the record format
bounds: a record is read back as the commit it was written for iff the lengths of the commit fit,
and a log of records iff those of all its commits do (`read_back_iff`). The record of a longer
value is cut in its value, and is rejected (`oversized_not_read_back`).

How long a record the log takes is not known here: nothing is said of whether a longer one is
ever appended.
-/

namespace TxnDb

/-- A record is read back as the commit it was written for iff the lengths of the
    commit fit, and a log of records iff those of all commits do. -/
theorem read_back_iff {commitTs : ℕ} {L : List Attempt} (writes : List WriteEntry)
    (hts : commitTs < 2 ^ 64) (hL : ∀ a ∈ L, a.commitTs < 2 ^ 64) :
    (decodeCommit (encodeForLog commitTs writes) = .ok ⟨commitTs, writes⟩ ↔ Fits writes) ∧
      (CommitLog.openLog (L.map record) = .ok (⟨⟨L.map record, []⟩⟩, L.map commitOf) ↔
        ∀ a ∈ L, Fits a.writes) := by
  have hone : ∀ {commitTs writes}, commitTs < 2 ^ 64 →
      (decodeCommit (encodeForLog commitTs writes) = .ok ⟨commitTs, writes⟩ ↔ Fits writes) :=
    fun hts => ⟨fun hok => (of_decodeCommit_ok hok).2.1, decodeCommit_encodeForLog hts⟩
  refine ⟨hone hts, ?_⟩
  rw [CommitLog.openLog]
  constructor
  · intro hok a ha
    cases hread : (L.map record).mapM fun entry => decodeCommit entry.data with
    | error e =>
      rw [hread] at hok
      cases hok
    | ok commits =>
      rw [hread] at hok
      obtain rfl : commits = L.map commitOf := (Prod.mk.inj (Except.ok.inj hok)).2
      rw [List.mapM_map] at hread
      have hall := List.forall₂_map_right_iff.1 (forall₂_of_mapM hread)
      exact (hone (hL a ha)).1 (List.forall₂_same.1 hall a ha)
  · intro hfit
    have hread := decode_records fun a ha => ⟨hL a ha, hfit a ha⟩
    rw [decodeAll] at hread
    rw [hread]
    rfl

theorem read_back_iff_tombstone :
    decodeCommit (encodeForLog 1 [⟨[120], none⟩]) = .ok ⟨1, [⟨[120], none⟩]⟩ ∧
      CommitLog.openLog [record ⟨0, 0, 1, [⟨[120], none⟩], []⟩] =
        .ok (⟨⟨[record ⟨0, 0, 1, [⟨[120], none⟩], []⟩], []⟩⟩, [⟨1, [⟨[120], none⟩]⟩]) := by
  have h := @read_back_iff 1 [⟨0, 0, 1, [⟨[120], none⟩], []⟩] [⟨[120], none⟩] (by decide)
    (by decide)
  exact ⟨h.1.2 (by decide), h.2.2 (by decide)⟩

/-- The record of a value whose length is one more than what its length field can hold is not
    read back: the length is read as `0`, and the value is in the way. -/
theorem oversized_not_read_back :
    decodeCommit (encodeForLog 1 [⟨[120], some (List.replicate (2 ^ 32) 0)⟩]) =
        .error (corrupt "trailing bytes after commit record") ∧
      decodeCommit (encodeForLog 1 [⟨[120], some (List.replicate (2 ^ 32) 0)⟩]) ≠
        .ok ⟨1, [⟨[120], some (List.replicate (2 ^ 32) 0)⟩]⟩ := by
  have herr : decodeCommit (encodeForLog 1 [⟨[120], some (List.replicate (2 ^ 32) 0)⟩]) =
      .error (corrupt "trailing bytes after commit record") :=
    decodeCommit_of_le_length (by decide) (by decide) List.length_replicate.ge
  refine ⟨herr, fun hok => ?_⟩
  rw [herr] at hok
  cases hok

end TxnDb
