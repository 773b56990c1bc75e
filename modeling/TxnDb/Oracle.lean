import Mathlib.Data.Finset.Card
import Mathlib.Data.List.AList
import TxnDb.Basic

/-!
# The timestamp oracle

The oracle hands out commit timestamps, and the timestamps transactions read
at: those of the *watermark*, below which every commit has finished. Commits
finish out of order; the timestamps done ahead of the watermark wait in a set
until it catches up with them. The oracle also registers the readers alive, for
garbage collection to stay below the oldest.

What the oracle guarantees is stated against the state of its clients:

* `Oracle.Tracks N F`: `N` timestamps were handed out (or recovered), of which
  exactly those in `F` are still in flight. The watermark is then below all of
  `F`, and as high as it can be (`Oracle.Tracks.le_readTs_iff`);
* `Oracle.Registers count`: the registry holds, for each timestamp, the number
  of readers alive at it. The low watermark is then below every reader alive,
  and every reader to come (`Oracle.Registers.lowWatermark_le`,
  `Oracle.Registers.lowWatermark_le_readTs`).

Every operation preserves both, with the change it makes to `N`, `F` and
`count`. Timestamps wrap around at `2 ^ 64`; the guarantees are those of an
oracle that handed out fewer.
-/

namespace TxnDb

/-- The bookkeeping of the watermark. -/
structure Pending where
  /-- Every timestamp up to this one is complete. -/
  doneUpto : ℕ
  /-- Complete timestamps not yet contiguous with `doneUpto`. -/
  ahead : Finset ℕ
  deriving DecidableEq

/-- The oracle. -/
structure Oracle where
  /-- The next commit timestamp. -/
  nextTs : ℕ
  /-- The watermark, as published to readers. -/
  readTs : ℕ
  pending : Pending
  /-- The number of readers alive at each timestamp. -/
  readers : AList fun _ : ℕ => ℕ
  deriving DecidableEq

namespace Oracle

/-- The oracle of an empty database. -/
def new : Oracle where
  nextTs := 1
  readTs := 0
  pending := ⟨0, ∅⟩
  readers := ∅

/-- The oracle of a database recovered up to the timestamp `highest`. -/
def recovered (highest : ℕ) : Oracle where
  nextTs := wrap (highest + 1)
  readTs := highest
  pending := ⟨highest, ∅⟩
  readers := ∅

/-- Allocating a commit timestamp. -/
def allocCommitTs (o : Oracle) : ℕ × Oracle :=
  (o.nextTs, { o with nextTs := wrap (o.nextTs + 1) })

/-- Registering a reader, at the watermark. -/
def beginReader (o : Oracle) : ℕ × Oracle :=
  let ts := o.readTs
  (ts, { o with readers := o.readers.insert ts ((o.readers.lookup ts).getD 0 + 1) })

/-- Dropping a reader registered at `ts`. -/
def endReader (o : Oracle) (ts : ℕ) : Oracle :=
  match o.readers.lookup ts with
  | some count =>
    if count - 1 = 0 then { o with readers := o.readers.erase ts }
    else { o with readers := o.readers.insert ts (count - 1) }
  -- nobody is registered there
  | none => o

/-- The oldest timestamp a reader alive can observe; the watermark if there is none. -/
def lowWatermark (o : Oracle) : ℕ :=
  match o.readers.keys.min? with
  | some oldest => oldest
  | none => o.readTs

/-- The loop advancing the watermark across the complete timestamps from `next`
    on: every iteration removes one of them, which bounds their number. -/
def catchUp : (fuel : ℕ) → Pending → (next : ℕ) → Pending
  | 0, p, _ => p
  | fuel + 1, p, next =>
    if next ∈ p.ahead then catchUp fuel ⟨next, p.ahead.erase next⟩ (wrap (next + 1)) else p

/-- Reporting the commit (or aborted attempt) holding `ts` as finished. -/
def commitDone (o : Oracle) (ts : ℕ) : Oracle :=
  if ts = wrap (o.pending.doneUpto + 1) then
    let p := catchUp o.pending.ahead.card ⟨ts, o.pending.ahead⟩ (wrap (ts + 1))
    { o with pending := p, readTs := p.doneUpto }
  -- out of order: the timestamp waits for those below it
  else { o with pending := { o.pending with ahead := insert ts o.pending.ahead } }

section

variable (o : Oracle) (ts : ℕ)

@[simp] theorem nextTs_endReader : (o.endReader ts).nextTs = o.nextTs := by
  rw [endReader]
  split
  · split_ifs <;> rfl
  · rfl

@[simp] theorem readTs_endReader : (o.endReader ts).readTs = o.readTs := by
  rw [endReader]
  split
  · split_ifs <;> rfl
  · rfl

@[simp] theorem pending_endReader : (o.endReader ts).pending = o.pending := by
  rw [endReader]
  split
  · split_ifs <;> rfl
  · rfl

@[simp] theorem readers_commitDone : (o.commitDone ts).readers = o.readers := by
  rw [commitDone]
  split_ifs <;> rfl

end

/-! ## The watermark -/

/-- The watermark of `p'` is that of `p`, moved across the complete timestamps
    following it, and stops at one that is not complete. -/
structure CaughtUp (p p' : Pending) : Prop where
  le : p.doneUpto ≤ p'.doneUpto
  passed : ∀ t, p.doneUpto < t → t ≤ p'.doneUpto → t ∈ p.ahead
  ahead : ∀ t, t ∈ p'.ahead ↔ t ∈ p.ahead ∧ p'.doneUpto < t
  stops : p'.doneUpto + 1 ∉ p'.ahead

/-- Given as much fuel as there are complete timestamps ahead, the loop catches up. -/
theorem catchUp_caughtUp : ∀ {fuel : ℕ} {p : Pending}, p.ahead.card ≤ fuel →
    (∀ t ∈ p.ahead, p.doneUpto < t ∧ t < 2 ^ 64) →
    CaughtUp p (catchUp fuel p (wrap (p.doneUpto + 1)))
  -- on the fuel, which covers what is ahead in every round
  | 0, p, hcard, _ => by
    have he : p.ahead = ∅ := Finset.card_eq_zero.1 (Nat.le_zero.1 hcard)
    exact ⟨le_rfl, fun t h h' => absurd h (by rw [catchUp] at h'; omega),
      fun t => by simp [catchUp, he], by simp [catchUp, he]⟩
  | fuel + 1, p, hcard, hp => by
    rw [catchUp]
    split_ifs with hmem
    · -- the next timestamp is complete: it is not a wrapped one, being ahead
      have hlt : p.doneUpto + 1 < 2 ^ 64 := by
        by_contra hge
        have := hp _ hmem
        have := wrap_lt (p.doneUpto + 1)
        omega
      rw [wrap_of_lt hlt] at hmem ⊢
      have ih := @catchUp_caughtUp fuel ⟨p.doneUpto + 1, p.ahead.erase (p.doneUpto + 1)⟩
        (by rw [Finset.card_erase_of_mem hmem]; omega)
        (fun t ht => by
          obtain ⟨hne, ht⟩ := Finset.mem_erase.1 ht
          have := hp t ht
          exact ⟨by change p.doneUpto + 1 < t; omega, this.2⟩)
      refine ⟨(Nat.le_succ _).trans ih.le, fun t h h' => ?_, fun t => ?_, ih.stops⟩
      · rcases Nat.eq_or_lt_of_le (Nat.succ_le_of_lt h) with rfl | h
        · exact hmem
        · exact (Finset.mem_erase.1 (ih.passed t h h')).2
      · have := ih.le
        rw [ih.ahead, Finset.mem_erase]
        refine ⟨fun ⟨⟨_, h⟩, h'⟩ => ⟨h, h'⟩, fun ⟨h, h'⟩ => ⟨⟨?_, h⟩, h'⟩⟩
        simp only at this
        omega
    · -- it is not, or the timestamps are exhausted and nothing is ahead
      refine ⟨le_rfl, fun t h h' => absurd h (not_lt.2 h'),
        fun t => ⟨fun h => ⟨h, (hp t h).1⟩, fun h => h.1⟩, fun h => hmem ?_⟩
      rwa [wrap_of_lt (hp _ h).2]

/-- Whatever is complete, the loop does not go back, and goes no further than by the number
    of complete timestamps ahead. -/
theorem catchUp_advance : ∀ {fuel : ℕ} {p : Pending}, p.doneUpto + p.ahead.card < 2 ^ 64 →
    p.doneUpto ≤ (catchUp fuel p (wrap (p.doneUpto + 1))).doneUpto ∧
      (catchUp fuel p (wrap (p.doneUpto + 1))).doneUpto +
        (catchUp fuel p (wrap (p.doneUpto + 1))).ahead.card ≤ p.doneUpto + p.ahead.card
  | 0, p, _ => ⟨le_rfl, le_rfl⟩
  | fuel + 1, p, hp => by
    rw [catchUp]
    split_ifs with hmem
    · have hpos := Finset.card_pos.2 ⟨_, hmem⟩
      have hcard := Finset.card_erase_of_mem hmem
      rw [wrap_of_lt (by omega)] at hmem hcard ⊢
      obtain ⟨hle, hsum⟩ := @catchUp_advance fuel ⟨p.doneUpto + 1, p.ahead.erase (p.doneUpto + 1)⟩
        (by simp only [hcard]; omega)
      simp only [hcard] at hle hsum
      exact ⟨by omega, by omega⟩
    · exact ⟨le_rfl, le_rfl⟩

/-- Whatever is reported, the watermark does not move back, unless it overflows. -/
theorem commitDone_advance {o : Oracle} (ts : ℕ) (hdone : o.pending.doneUpto = o.readTs)
    (hlt : o.readTs + o.pending.ahead.card + 1 < 2 ^ 64) :
    (o.commitDone ts).pending.doneUpto = (o.commitDone ts).readTs ∧
      o.readTs ≤ (o.commitDone ts).readTs ∧
      (o.commitDone ts).readTs + (o.commitDone ts).pending.ahead.card ≤
        o.readTs + o.pending.ahead.card + 1 := by
  rw [commitDone, hdone, wrap_of_lt (by omega)]
  split_ifs with heq
  · have hadvance := @catchUp_advance o.pending.ahead.card ⟨ts, o.pending.ahead⟩
    simp only at hadvance
    have := hadvance (by omega)
    exact ⟨rfl, by simp only; omega, by simp only; omega⟩
  · have := Finset.card_insert_le ts o.pending.ahead
    exact ⟨hdone, le_rfl, by simp only; omega⟩

/-- The oracle has handed out (or recovered) the timestamps up to `N`, of which
    those in `F` are in flight: not reported as finished yet. -/
structure Tracks (o : Oracle) (N : ℕ) (F : ℕ → Prop) : Prop where
  nextTs : o.nextTs = wrap (N + 1)
  doneUpto : o.pending.doneUpto = o.readTs
  le : o.readTs ≤ N
  lt : N < 2 ^ 64
  ahead : ∀ t ∈ o.pending.ahead, o.readTs + 1 < t ∧ t ≤ N
  inFlight : ∀ t, F t ↔ o.readTs < t ∧ t ≤ N ∧ t ∉ o.pending.ahead

variable {o : Oracle} {N : ℕ} {F : ℕ → Prop}

theorem tracks_new : new.Tracks 0 fun _ => False where
  nextTs := rfl
  doneUpto := rfl
  le := le_rfl
  lt := by decide
  ahead := by simp [new]
  inFlight _ := ⟨False.elim, fun ⟨h, h', _⟩ => absurd h (not_lt.2 h')⟩

theorem tracks_recovered {highest : ℕ} (h : highest < 2 ^ 64) :
    (recovered highest).Tracks highest fun _ => False where
  nextTs := rfl
  doneUpto := rfl
  le := le_rfl
  lt := h
  ahead := by simp [recovered]
  inFlight _ := ⟨False.elim, fun ⟨h, h', _⟩ => absurd h (not_lt.2 h')⟩

namespace Tracks

theorem congr {F' : ℕ → Prop} (h : o.Tracks N F) (hF : ∀ t, F' t ↔ F t) : o.Tracks N F' :=
  ⟨h.nextTs, h.doneUpto, h.le, h.lt, h.ahead, fun t => (hF t).trans (h.inFlight t)⟩

/-- Readers begin and end without the timestamps being concerned. -/
theorem congr_readers {o' : Oracle} (h : o.Tracks N F) (hn : o'.nextTs = o.nextTs)
    (hr : o'.readTs = o.readTs) (hp : o'.pending = o.pending) : o'.Tracks N F := by
  obtain ⟨nextTs, readTs, pending, readers⟩ := o'
  obtain rfl : nextTs = o.nextTs := hn
  obtain rfl : readTs = o.readTs := hr
  obtain rfl : pending = o.pending := hp
  exact ⟨h.nextTs, h.doneUpto, h.le, h.lt, h.ahead, h.inFlight⟩

/-- A timestamp handed out is at or below the watermark iff no timestamp up to
    it is in flight. -/
theorem le_readTs_iff (h : o.Tracks N F) {c : ℕ} (hc : c ≤ N) :
    c ≤ o.readTs ↔ ∀ t ≤ c, ¬F t := by
  constructor
  · intro hle t ht hF
    have := ((h.inFlight t).1 hF).1
    omega
  · intro hF
    by_contra hlt
    refine hF (o.readTs + 1) (by omega) ((h.inFlight _).2 ⟨by omega, by omega, fun ha => ?_⟩)
    have := (h.ahead _ ha).1
    omega

/-- With nothing in flight, the watermark is the last timestamp handed out. -/
theorem readTs_eq (h : o.Tracks N F) (hF : ∀ t, ¬F t) : o.readTs = N :=
  le_antisymm h.le ((h.le_readTs_iff le_rfl).2 fun t _ => hF t)

/-- The timestamps in flight are above the watermark. -/
theorem readTs_lt (h : o.Tracks N F) {t : ℕ} (ht : F t) : o.readTs < t := ((h.inFlight t).1 ht).1

theorem le_issued (h : o.Tracks N F) {t : ℕ} (ht : F t) : t ≤ N := ((h.inFlight t).1 ht).2.1

/-- The timestamp allocated is the next one, and in flight. -/
theorem alloc (h : o.Tracks N F) (hN : N + 1 < 2 ^ 64) :
    o.allocCommitTs.1 = N + 1 ∧
      o.allocCommitTs.2.Tracks (N + 1) fun t => F t ∨ t = N + 1 := by
  have hts : o.nextTs = N + 1 := by rw [h.nextTs, wrap_of_lt hN]
  refine ⟨hts, ⟨by simp only [allocCommitTs, hts], h.doneUpto, h.le.trans (Nat.le_succ _), hN,
    fun t ht => ⟨(h.ahead t ht).1, (h.ahead t ht).2.trans (Nat.le_succ _)⟩, fun t => ?_⟩⟩
  have hle := h.le
  simp only [allocCommitTs, h.inFlight]
  constructor
  · rintro (⟨h1, h2, h3⟩ | rfl)
    · exact ⟨h1, by omega, h3⟩
    · exact ⟨by omega, le_rfl, fun ha => by have := (h.ahead _ ha).2; omega⟩
  · rintro ⟨h1, h2, h3⟩
    by_cases ht : t = N + 1
    · exact .inr ht
    · exact .inl ⟨h1, by omega, h3⟩

/-- A timestamp in flight is reported: the watermark does not move back, and the
    others stay in flight. -/
theorem done (h : o.Tracks N F) {ts : ℕ} (hts : F ts) :
    o.readTs ≤ (o.commitDone ts).readTs ∧
      (o.commitDone ts).Tracks N fun t => F t ∧ t ≠ ts := by
  obtain ⟨hlt, hle, hna⟩ := (h.inFlight ts).1 hts
  have hN := h.lt
  rw [commitDone, h.doneUpto, wrap_of_lt (by omega)]
  split_ifs with heq
  · -- the watermark reaches `ts`, and catches up from there
    have hc := catchUp_caughtUp (p := ⟨ts, o.pending.ahead⟩) le_rfl fun t ht => by
      have := h.ahead t ht
      exact ⟨by change ts < t; omega, by omega⟩
    simp only at hc
    generalize catchUp _ _ _ = p at hc ⊢
    have hcle : ts ≤ p.doneUpto := hc.le
    have hpN : p.doneUpto ≤ N := by
      rcases Nat.eq_or_lt_of_le hcle with he | hlt'
      · omega
      · exact (h.ahead _ (hc.passed _ hlt' le_rfl)).2
    refine ⟨by change o.readTs ≤ p.doneUpto; omega, h.nextTs, rfl, hpN, hN, fun t ht => ?_,
      fun t => ?_⟩
    · obtain ⟨ht', hlt'⟩ := (hc.ahead t).1 ht
      refine ⟨?_, (h.ahead t ht').2⟩
      rcases Nat.eq_or_lt_of_le (Nat.succ_le_of_lt hlt') with rfl | hlt''
      · exact absurd ht hc.stops
      · exact hlt''
    · rw [h.inFlight, hc.ahead]
      constructor
      · rintro ⟨⟨h1, h2, h3⟩, hne⟩
        refine ⟨?_, h2, fun h4 => h3 h4.1⟩
        by_contra hle'
        exact h3 (hc.passed t (by change ts < t; omega) (not_lt.1 hle'))
      · rintro ⟨h1, h2, h3⟩
        simp only at h1
        exact ⟨⟨by omega, h2, fun h4 => h3 ⟨h4, h1⟩⟩, by omega⟩
  · -- `ts` waits ahead of the watermark
    refine ⟨le_rfl, h.nextTs, h.doneUpto, h.le, hN, fun t ht => ?_, fun t => ?_⟩
    · rcases Finset.mem_insert.1 ht with rfl | ht
      · exact ⟨by change o.readTs + 1 < t; omega, hle⟩
      · exact h.ahead t ht
    · rw [h.inFlight, Finset.mem_insert, not_or]
      constructor
      · rintro ⟨⟨h1, h2, h3⟩, hne⟩
        exact ⟨h1, h2, hne, h3⟩
      · rintro ⟨h1, h2, hne, h3⟩
        exact ⟨⟨h1, h2, h3⟩, hne⟩

end Tracks

/-! ## The registry -/

/-- The registry holds the number of readers alive at each timestamp. -/
def Registers (o : Oracle) (count : ℕ → ℕ) : Prop :=
  ∀ r, o.readers.lookup r = if count r = 0 then none else some (count r)

variable {count : ℕ → ℕ}

theorem registers_new : new.Registers fun _ => 0 := fun r => by simp [new]

theorem registers_recovered {highest : ℕ} : (recovered highest).Registers fun _ => 0 :=
  fun r => by simp [recovered]

theorem Registers.congr {count' : ℕ → ℕ} (h : o.Registers count)
    (hcount : ∀ r, count' r = count r) : o.Registers count' := fun r => by
  rw [h r, hcount]

theorem Registers.congr_readers {o' : Oracle} (h : o.Registers count)
    (hr : o'.readers = o.readers) : o'.Registers count := fun r => by
  rw [hr, h r]

theorem Registers.mem_iff (h : o.Registers count) {r : ℕ} : r ∈ o.readers ↔ 0 < count r := by
  rw [← AList.lookup_isSome, h r]
  split_ifs with h0 <;> simp <;> omega

/-- A reader begins at the watermark, and is counted there. -/
theorem Registers.beginReader (h : o.Registers count) :
    o.beginReader.2.Registers fun r => count r + if r = o.readTs then 1 else 0 := by
  intro r
  simp only [Oracle.beginReader]
  by_cases hr : r = o.readTs
  · subst hr
    rw [AList.lookup_insert, h]
    split_ifs <;> simp_all
  · rw [AList.lookup_insert_ne hr, h]
    simp [hr]

/-- A reader that ends is counted no more. -/
theorem Registers.endReader (h : o.Registers count) {ts : ℕ} :
    (o.endReader ts).Registers fun r => count r - if r = ts then 1 else 0 := by
  intro r
  have hts := h ts
  simp only [Oracle.endReader]
  by_cases h0 : count ts = 0
  · rw [if_pos h0] at hts
    rw [hts]
    simp only
    rw [h r]
    by_cases hr : r = ts <;> simp [hr, h0]
  · rw [if_neg h0] at hts
    rw [hts]
    simp only
    by_cases hr : r = ts
    · subst hr
      rw [if_pos rfl]
      split_ifs with h1
      · exact AList.lookup_erase _ _
      · exact AList.lookup_insert _
    · rw [if_neg hr, Nat.sub_zero, ← h r]
      by_cases h1 : count ts - 1 = 0
      · rw [if_pos h1]
        exact AList.lookup_erase_ne hr
      · rw [if_neg h1]
        exact AList.lookup_insert_ne hr

/-- The low watermark is at or below every reader alive. -/
theorem Registers.lowWatermark_le (h : o.Registers count) {r : ℕ} (hr : 0 < count r) :
    o.lowWatermark ≤ r := by
  have hmem : r ∈ o.readers.keys := AList.mem_keys.1 (h.mem_iff.2 hr)
  rw [lowWatermark]
  cases hmin : o.readers.keys.min? with
  | none => exact absurd hmem (by rw [List.min?_eq_none_iff.1 hmin]; exact List.not_mem_nil)
  | some m => exact (List.min?_eq_some_iff.1 hmin).2 r hmem

/-- The low watermark is at or below the watermark, where readers begin. -/
theorem Registers.lowWatermark_le_readTs (h : o.Registers count)
    (hle : ∀ r, 0 < count r → r ≤ o.readTs) : o.lowWatermark ≤ o.readTs := by
  rw [lowWatermark]
  cases hmin : o.readers.keys.min? with
  | none => exact le_rfl
  | some m =>
    have hmem := (List.min?_eq_some_iff.1 hmin).1
    exact hle m (h.mem_iff.1 (AList.mem_keys.2 hmem))

end Oracle

end TxnDb
