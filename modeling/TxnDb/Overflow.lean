import TxnDb.Quiet
import TxnDb.Replay

/-!
# Timestamps at the end of their range

Opening a database takes whatever timestamps are in its log, up to the last `u64`,
and goes on above the highest one. The sums made on the way are those of
`Oracle.recovered`, of the allocation of a timestamp, and of the report of its
commit: with checks for overflow (`checkedAdd`), the operations return what they
return without, or nothing.

The first commit after opening makes them without overflow iff the highest
timestamp is at least three below the end of the range
(`Oracle.isSome_firstCommit?`), and so the database works on iff all timestamps
are (`worksOn_iff`).
-/

namespace TxnDb

/-- A `u64` sum, if it does not overflow. -/
def checkedAdd (m n : ℕ) : Option ℕ := if m + n < 2 ^ 64 then some (m + n) else none

theorem checkedAdd_eq_some {m n sum : ℕ} :
    checkedAdd m n = some sum ↔ m + n < 2 ^ 64 ∧ wrap (m + n) = sum := by
  rw [checkedAdd]
  split_ifs with h
  · rw [wrap_of_lt h, Option.some_inj, and_iff_right h]
  · exact iff_of_false (by simp) fun hlt => h hlt.1

namespace Oracle

variable {o o' : Oracle} {highest ts : ℕ} {p p' : Pending} {fuel next : ℕ}

/-! ## The operations of the oracle, with checks -/

def recovered? (highest : ℕ) : Option Oracle := do
  let nextTs ← checkedAdd highest 1
  return ⟨nextTs, highest, ⟨highest, ∅⟩, ∅⟩

def allocCommitTs? (o : Oracle) : Option (ℕ × Oracle) := do
  let nextTs ← checkedAdd o.nextTs 1
  return (o.nextTs, { o with nextTs })

def catchUp? : (fuel : ℕ) → Pending → (next : ℕ) → Option Pending
  | 0, p, _ => return p
  | fuel + 1, p, next =>
    if next ∈ p.ahead then do
      let next' ← checkedAdd next 1
      catchUp? fuel ⟨next, p.ahead.erase next⟩ next'
    else return p

def commitDone? (o : Oracle) (ts : ℕ) : Option Oracle := do
  let first ← checkedAdd o.pending.doneUpto 1
  if ts = first then
    let next ← checkedAdd ts 1
    let p ← catchUp? o.pending.ahead.card ⟨ts, o.pending.ahead⟩ next
    return { o with pending := p, readTs := p.doneUpto }
  else return { o with pending := { o.pending with ahead := insert ts o.pending.ahead } }

/-- What the first commit after opening makes of the oracle: a reader begins, a timestamp
    is handed out, and reported. -/
def firstCommit? (highest : ℕ) : Option Oracle := do
  let o ← recovered? highest
  let (ts, o) ← o.beginReader.2.allocCommitTs?
  o.commitDone? ts

/-! Without overflow, the operations return what they return with checks. -/

theorem recovered_of_checked (h : recovered? highest = some o) : recovered highest = o := by
  obtain ⟨next, hnext, ho⟩ := Option.bind_eq_some_iff.1 h
  obtain ⟨-, rfl⟩ := checkedAdd_eq_some.1 hnext
  exact Option.some.inj ho

theorem allocCommitTs_of_checked (h : o.allocCommitTs? = some (ts, o')) :
    o.allocCommitTs = (ts, o') := by
  obtain ⟨next, hnext, ho⟩ := Option.bind_eq_some_iff.1 h
  obtain ⟨-, rfl⟩ := checkedAdd_eq_some.1 hnext
  exact Option.some.inj ho

theorem catchUp_of_checked (h : catchUp? fuel p next = some p') : catchUp fuel p next = p' := by
  induction fuel generalizing p next with
  | zero => exact Option.some.inj h
  | succ fuel ih =>
    rw [catchUp?] at h
    rw [catchUp]
    split_ifs at h ⊢ with hmem
    · obtain ⟨next', hnext, hcatch⟩ := Option.bind_eq_some_iff.1 h
      obtain ⟨-, rfl⟩ := checkedAdd_eq_some.1 hnext
      exact ih hcatch
    · exact Option.some.inj h

theorem commitDone_of_checked (h : o.commitDone? ts = some o') : o.commitDone ts = o' := by
  obtain ⟨first, hfirst, h⟩ := Option.bind_eq_some_iff.1 h
  obtain ⟨-, rfl⟩ := checkedAdd_eq_some.1 hfirst
  rw [commitDone]
  split_ifs at h ⊢ with heq
  · obtain ⟨next, hnext, h⟩ := Option.bind_eq_some_iff.1 h
    obtain ⟨-, rfl⟩ := checkedAdd_eq_some.1 hnext
    obtain ⟨p, hp, ho⟩ := Option.bind_eq_some_iff.1 h
    rw [catchUp_of_checked hp]
    exact Option.some.inj ho
  · exact Option.some.inj h

/-- The first commit after opening overflows nothing iff there are two timestamps left. -/
theorem isSome_firstCommit? : (firstCommit? highest).isSome ↔ highest + 2 < 2 ^ 64 := by
  constructor
  · intro h
    obtain ⟨o, ho⟩ := Option.isSome_iff_exists.1 h
    obtain ⟨o₁, hrec, ho⟩ := Option.bind_eq_some_iff.1 ho
    obtain ⟨⟨ts, o₂⟩, halloc, -⟩ := Option.bind_eq_some_iff.1 ho
    obtain ⟨next, hnext, -⟩ := Option.bind_eq_some_iff.1 halloc
    obtain ⟨first, hfirst, hrec⟩ := Option.bind_eq_some_iff.1 hrec
    obtain ⟨hlt, rfl⟩ := checkedAdd_eq_some.1 hfirst
    obtain rfl := Option.some.inj hrec
    have hnext : wrap (highest + 1) + 1 < 2 ^ 64 := (checkedAdd_eq_some.1 hnext).1
    rwa [wrap_of_lt hlt] at hnext
  -- nothing is ahead in a database just opened, so the loop adds nothing
  · intro h
    have hone : checkedAdd highest 1 = some (highest + 1) := if_pos (by omega)
    have htwo : checkedAdd (highest + 1) 1 = some (highest + 2) := if_pos h
    simp [firstCommit?, recovered?, allocCommitTs?, commitDone?, beginReader, catchUp?, hone, htwo]

end Oracle

/-! ## Opening a database -/

variable {records : List Record} {commits : List RecoveredCommit}

/-- Opened with the commits of its log, the database works on: the next timestamp is above
    all of theirs, a transaction that puts a value then succeeds, the next snapshot reads
    it, and nothing overflows. -/
structure WorksOn (commits : List RecoveredCommit) (inner : Inner) : Prop where
  above : ∀ commit ∈ commits, commit.commitTs < inner.allocCommitTs.1
  put : ∀ key value, ∃ ts inner', inner.put 0 key value none 1 = some (.ok ts, inner') ∧
    inner'.store.get key inner'.beginReader.1 = some value
  checked : (Oracle.firstCommit? ((commits.map (·.commitTs)).foldl max 0)).isSome

/-- The database opened on a log works on iff every timestamp in it is at least three below
    the end of the range. -/
theorem worksOn_iff (hdecode : decodeAll records = .ok commits) :
    ∃ inner, Inner.openLog records = .ok inner ∧
      (WorksOn commits inner ↔ ∀ commit ∈ commits, commit.commitTs + 2 < 2 ^ 64) := by
  have hopen := openLog_eq hdecode
  have hle : ∀ commit ∈ commits, commit.commitTs ≤ (commits.map (·.commitTs)).foldl max 0 :=
    fun commit hc => List.foldl_max_le_iff.1 le_rfl _ (List.mem_map_of_mem hc)
  refine ⟨_, hopen, fun hw commit hc => ?_, fun hlt => ?_⟩
  · have hhighest := Oracle.isSome_firstCommit?.1 hw.checked
    have := hle commit hc
    omega
  · -- the highest timestamp is one of them
    have hhighest : (commits.map (·.commitTs)).foldl max 0 ≤ 2 ^ 64 - 3 := by
      refine List.foldl_max_le_iff.2 fun n hn => ?_
      obtain ⟨commit, hc, rfl⟩ := List.mem_map.1 hn
      have := hlt commit hc
      omega
    have hnext : wrap ((commits.map (·.commitTs)).foldl max 0 + 1) =
        (commits.map (·.commitTs)).foldl max 0 + 1 := wrap_of_lt (by omega)
    refine ⟨fun commit hc => ?_, fun key value => ?_, Oracle.isSome_firstCommit?.2 (by omega)⟩
    · exact (Nat.lt_succ_of_le (hle commit hc)).trans_eq hnext.symm
    -- nothing is in flight: the put returns from its first round
    · have hopened : Sys.Opened ⟨_, [], []⟩ := .inr ⟨records, _, hopen, rfl⟩
      have hlt : (commits.map (·.commitTs)).foldl max 0 + 1 < 2 ^ 64 := by omega
      obtain ⟨inner', hput, hget⟩ := retry_returns hopened.bounded nofun hlt key (some value) 0
      exact ⟨_, inner', hput, (hget key).trans (if_pos rfl)⟩

theorem decodeAll_singleton (owner : ℕ) {ts : ℕ} {writes : List WriteEntry} (hts : ts < 2 ^ 64)
    (h : Fits writes) : decodeAll [⟨owner, encodeForLog ts writes⟩] = .ok [⟨ts, writes⟩] :=
  mapM_of_forall₂ (.cons (decodeCommit_encodeForLog hts h) .nil)

/-- At the last timestamp after which a database works on. -/
theorem worksOn_iff_last : ∃ inner,
    Inner.openLog [⟨0, encodeForLog (2 ^ 64 - 3) [⟨[120], some [1]⟩]⟩] = .ok inner ∧
      WorksOn [⟨2 ^ 64 - 3, [⟨[120], some [1]⟩]⟩] inner := by
  obtain ⟨inner, hopen, hiff⟩ := worksOn_iff
    (@decodeAll_singleton 0 (2 ^ 64 - 3) [⟨[120], some [1]⟩] (by decide) (by decide))
  exact ⟨inner, hopen, hiff.2 (by simp)⟩

/-- At the last timestamp there is, the next one is the first: the next transaction commits
    below the recovered one, which is not seen any more. -/
theorem recovers_at_the_end : ∃ inner inner',
    Inner.openLog [⟨0, encodeForLog (2 ^ 64 - 1) [⟨[120], some [1]⟩]⟩] = .ok inner ∧
      inner.allocCommitTs.1 = 0 ∧ inner.put 0 [121] [2] none 1 = some (.ok 0, inner') ∧
      inner.store.get [120] inner.readTs = some [1] ∧
      inner'.store.get [120] inner'.readTs = none ∧
      ¬WorksOn [⟨2 ^ 64 - 1, [⟨[120], some [1]⟩]⟩] inner := by
  have hopen := openLog_eq
    (@decodeAll_singleton 0 (2 ^ 64 - 1) [⟨[120], some [1]⟩] (by decide) (by decide))
  generalize hinner : Inner.mk _ _ _ = inner at hopen
  -- the watermark wraps with the timestamp
  have hput : (inner.put 0 [121] [2] none 1).map (fun p =>
      (p.1, p.2.store.get [120] p.2.readTs)) = some (.ok 0, none) := by
    rw [← hinner]
    decide +kernel
  obtain ⟨⟨result, inner'⟩, hput, heq⟩ := Option.map_eq_some_iff.1 hput
  obtain ⟨rfl, hget⟩ := Prod.mk.inj heq
  subst hinner
  refine ⟨_, inner', hopen, rfl, hput, by decide +kernel, hget, fun hw => ?_⟩
  exact absurd (hw.above _ List.mem_cons_self) (Nat.not_lt_zero _)

end TxnDb
