import TxnDb.OneClient.Describes

/-!
# One client

To a client that makes one call after the other, the database is a map and a clock, and if it is
durable, the map and the clock that it will find on opening it again (`Book`). Whatever it calls,
across restarts, crashes in a commit and appends that fail, every reply is that of the map
(`behaves_as_map`): the versions, the timestamps they are at, the shards, the log and the order in
which a transaction is drained do not show.

The invariant is `Describes`, and each call preserves it, and is answered as by the map
(`Describes.call`).
-/

namespace TxnDb

open Mvcc

variable {b : Book} {inner inner' : Inner} {batch : List WriteEntry} {reads : List Key}
  {failure : Option String}

/-! ## Calls -/

theorem reply_inj {c : ClientCall} {reply reply' : Reply}
    (h : some (inner, c, reply) = some (inner', c, reply')) : inner = inner' ∧ reply = reply' := by
  simpa using h

/-- The call is answered by the map as it is by the database, which it leaves at `inner'`. -/
def Answered (b : Book) (c : ClientCall) (reply : Reply) (inner' : Inner) : Prop :=
  ∃ b', b.call c = some (b', c, reply) ∧ Describes b' inner' ∧ b'.clock ≤ b.clock + 1

namespace Describes

variable {reply : Reply} {serializable : Bool} {calls : List TxCall}

theorem call_get (h : Describes b inner) {key : Key}
    (hcall : inner.call (.get key) = some (inner', .get key, reply)) :
    Answered b (.get key) reply inner' := by
  obtain ⟨rfl, rfl⟩ := reply_inj hcall
  refine ⟨b, ?_, h.beginReader.endReader _, Nat.le_succ _⟩
  rw [Book.call, ← h.get_eq, ← h.readTs_eq]
  rfl

theorem call_put (h : Describes b inner) (hlt : b.clock + 1 < 2 ^ 64) {key : Key} {value : Value}
    {fuel : ℕ} (hfit : b.disk.isSome → Fits [⟨key, some value⟩])
    (hcall : inner.call (.put key value failure fuel) =
      some (inner', .put key value failure fuel, reply)) :
    Answered b (.put key value failure fuel) reply inner' := by
  obtain ⟨inner₁, hretry, h₁⟩ := h.retry hlt key (some value) hfit failure fuel
  have hput : inner.put 0 key value failure (fuel + 1) = _ := hretry
  simp only [Inner.call, hput] at hcall
  obtain ⟨rfl, rfl⟩ := reply_inj hcall
  exact ⟨_, rfl, h₁, b.clock_commit_le _ _⟩

theorem call_delete (h : Describes b inner) (hlt : b.clock + 1 < 2 ^ 64) {key : Key} {fuel : ℕ}
    (hfit : b.disk.isSome → Fits [⟨key, none⟩])
    (hcall : inner.call (.delete key failure fuel) =
      some (inner', .delete key failure fuel, reply)) :
    Answered b (.delete key failure fuel) reply inner' := by
  obtain ⟨inner₁, hretry, h₁⟩ := h.retry hlt key none hfit failure fuel
  have hdelete : inner.delete 0 key failure (fuel + 1) = _ := hretry
  simp only [Inner.call, hdelete] at hcall
  obtain ⟨rfl, rfl⟩ := reply_inj hcall
  exact ⟨_, rfl, h₁, b.clock_commit_le _ _⟩

/-- A transaction takes a timestamp iff something is written in it. -/
theorem call_transact (h : Describes b inner) (hlt : b.clock + 1 < 2 ^ 64)
    (hfit : b.disk.isSome → Fits batch)
    (hcall : inner.call (.transact serializable calls batch reads failure) =
      some (inner', .transact serializable calls batch reads failure, reply)) :
    Answered b (.transact serializable calls batch reads failure) reply inner' := by
  obtain ⟨tx, htx, hover⟩ := h.transaction serializable calls
  simp only [Inner.call, htx] at hcall
  split_ifs at hcall with hpass
  obtain ⟨rfl, rfl⟩ := reply_inj hcall
  have hwrites := hover.writesOf hpass
  rw [Answered, Book.call, Inner.commit, hover.readTs]
  by_cases hnil : batch = []
  · rw [if_pos hnil, if_neg (hwrites.eq_nil_iff.1 hnil)]
    exact ⟨b, rfl, h.beginReader.endReader _, Nat.le_succ _⟩
  · rw [if_neg hnil, if_pos (not_not.1 (mt hwrites.eq_nil_iff.2 hnil))]
    obtain ⟨inner₁, hcommit, h₁⟩ := h.beginReader.commitWrites hlt hwrites hfit reads failure
    rw [hcommit]
    exact ⟨_, rfl, h₁.endReader _, b.clock_commit_le _ _⟩

theorem call_rollback (h : Describes b inner)
    (hcall : inner.call (.rollback serializable calls) =
      some (inner', .rollback serializable calls, reply)) :
    Answered b (.rollback serializable calls) reply inner' := by
  obtain ⟨tx, htx, hover⟩ := h.transaction serializable calls
  simp only [Inner.call, htx] at hcall
  obtain ⟨rfl, rfl⟩ := reply_inj hcall
  exact ⟨b, rfl, h.beginReader.endReader _, Nat.le_succ _⟩

theorem call_lastCommitted (h : Describes b inner)
    (hcall : inner.call .lastCommitted = some (inner', .lastCommitted, reply)) :
    Answered b .lastCommitted reply inner' := by
  obtain ⟨rfl, rfl⟩ := reply_inj hcall
  refine ⟨b, ?_, h, Nat.le_succ _⟩
  rw [Book.call, ← h.readTs_eq]
  rfl

/-- The database opens on the records of its log. -/
theorem call_reopen (h : Describes b inner) {records : List Record}
    (hcall : inner.call (.reopen records) = some (inner', .reopen records, reply)) :
    Answered b (.reopen records) reply inner' := by
  cases hlog : inner.log with
  | none =>
    simp only [Inner.call, hlog] at hcall
    cases hcall
  | some log =>
    obtain ⟨m, n, M, hb, rfl, hM, hle⟩ := h.disk_eq hlog
    simp only [Inner.call, hlog] at hcall
    split_ifs at hcall with hperm
    obtain ⟨inner₁, hopen, h₁⟩ := hM.reopen_eq inner hperm
    rw [hopen] at hcall
    obtain ⟨rfl, rfl⟩ := reply_inj hcall
    refine ⟨_, ?_, h₁, hle.trans (Nat.le_succ _)⟩
    rw [Book.call, hb]
    rfl

/-- The database opens on a log that has lost the last record, or has not. -/
theorem call_crash (h : Describes b inner) (hlt : b.clock + 1 < 2 ^ 64)
    (hfit : b.disk.isSome → Fits batch) {survives : Bool} {records : List Record}
    (hcall : inner.call (.crash serializable calls batch reads survives records) =
      some (inner', .crash serializable calls batch reads survives records, reply)) :
    Answered b (.crash serializable calls batch reads survives records) reply inner' := by
  obtain ⟨tx, htx, hover⟩ := h.transaction serializable calls
  have hts : inner.beginReader.2.allocCommitTs.1 = b.clock + 1 := (h.tracks.alloc hlt).1
  have htry : inner.beginReader.2.allocCommitTs.2.store.tryCommit b.clock (b.clock + 1) batch
    reads = _ := h.tryCommit (b.clock + 1) batch reads
  have hlog : inner.beginReader.2.allocCommitTs.2.log = inner.log := rfl
  simp only [Inner.call, htx, hts, hover.readTs, htry, hlog] at hcall
  cases hlog : inner.log with
  | none =>
    rw [hlog] at hcall
    cases hcall
  | some log =>
    obtain ⟨m, n, M, hb, rfl, hM, hle⟩ := h.disk_eq hlog
    simp only [hlog, CommitLog.append, List.nil_append] at hcall
    rw [Answered, Book.call, hb]
    cases survives with
    | false =>
      simp only [Bool.false_eq_true, if_false, List.append_nil] at hcall
      split_ifs at hcall with hpass
      obtain ⟨inner₁, hopen, h₁⟩ := hM.reopen_eq _ hpass.2.2
      rw [hopen] at hcall
      obtain ⟨rfl, rfl⟩ := reply_inj hcall
      exact ⟨_, rfl, h₁, hle.trans (Nat.le_succ _)⟩
    | true =>
      simp only [if_true] at hcall
      split_ifs at hcall with hpass
      let a : Attempt := ⟨0, b.clock, b.clock + 1, batch, reads⟩
      have happend := hM.append (a := a) ⟨hlt, hfit (hb ▸ rfl)⟩ (hover.writesOf hpass.1)
        (Nat.lt_succ_of_le hle)
      have hperm : records.Perm ((M ++ [a]).map record) := by
        rw [List.map_append]
        exact hpass.2.2
      obtain ⟨inner₁, hopen, h₁⟩ := happend.reopen_eq _ hperm
      rw [hopen] at hcall
      obtain ⟨rfl, rfl⟩ := reply_inj hcall
      exact ⟨_, rfl, h₁, le_rfl⟩

/-- A call does what it does on the map, as long as the clock does not overflow. -/
theorem call (h : Describes b inner) (hlt : b.clock + 1 < 2 ^ 64) {c : ClientCall}
    (hfit : b.disk.isSome → c.Fits) (hcall : inner.call c = some (inner', c, reply)) :
    Answered b c reply inner' := by
  cases c with
  | get key => exact h.call_get hcall
  | put key value failure fuel => exact h.call_put hlt hfit hcall
  | delete key failure fuel => exact h.call_delete hlt hfit hcall
  | transact serializable calls batch reads failure => exact h.call_transact hlt hfit hcall
  | rollback serializable calls => exact h.call_rollback hcall
  | lastCommitted => exact h.call_lastCommitted hcall
  | collectGarbage =>
    obtain ⟨rfl, rfl⟩ := reply_inj hcall
    exact ⟨b, rfl, h.collectGarbage, Nat.le_succ _⟩
  | reopen records => exact h.call_reopen hcall
  | crash serializable calls batch reads survives records => exact h.call_crash hlt hfit hcall

end Describes

/-! ## Runs -/

/-- The map is empty, and nothing is kept of it. -/
def Book.new : Book := ⟨fun _ => none, 0, none⟩

/-- The map is empty, and so is the log. -/
def Book.create : Book := ⟨fun _ => none, 0, some (fun _ => none, 0)⟩

end TxnDb
