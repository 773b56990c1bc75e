import Mathlib.Data.List.GetD
import TxnDb.System

/-!
# The handles and the oracle

The oracle hands out a timestamp to every attempt to commit, and registers every
handle. That it does so in step with the handles is an invariant of the system
(`Coordinated`): the timestamps in flight are those the handles hold, each held
by one, and the readers registered are the handles, none of which reads above
the watermark.

A timestamp is *safe* (`Sys.Safe`) if it is at or below every handle, and the
watermark, where handles begin: no handle, present or to come, reads below it.
The low watermark of a garbage collection is safe (`Coordinated.safe_lowWatermark`),
and once safe, a timestamp stays so (`Sys.Safe.step`), however late the shards
are pruned.
-/

namespace TxnDb

variable {s s' : Sys} {h h' r t N : ℕ} {x : Handle} {inner : Inner} {e : Event}

namespace Sys

theorem lt_of_handle (hh : s.handle h ≠ .closed) : h < s.handles.length := by
  by_contra hge
  exact hh (List.getD_eq_default _ _ (not_lt.1 hge))

@[simp] theorem inner_set : (s.set h x inner).inner = inner := rfl

@[simp] theorem sweeps_set : (s.set h x inner).sweeps = s.sweeps := rfl

@[simp] theorem length_handles_set : (s.set h x inner).handles.length = s.handles.length :=
  List.length_set

theorem handle_set (hh : s.handle h ≠ .closed) (h' : ℕ) :
    (s.set h x inner).handle h' = if h' = h then x else s.handle h' :=
  List.getD_set (lt_of_handle hh) _ _ _

theorem handle_set_self (hh : s.handle h ≠ .closed) : (s.set h x inner).handle h = x := by
  rw [handle_set hh, if_pos rfl]

theorem handle_set_of_ne (hne : h' ≠ h) : (s.set h x inner).handle h' = s.handle h' := by
  simp only [handle, set, List.getD_eq_getElem?_getD, List.getElem?_set_ne hne.symm]

/-- A handle is the one that changes, or it is as before. -/
theorem handle_set_cases {y : Handle} (hh : s.handle h ≠ .closed)
    (hset : (s.set h x inner).handle h' = y) : s.handle h' = y ∨ (h' = h ∧ x = y) := by
  rw [handle_set hh] at hset
  split_ifs at hset with heq
  · exact .inr ⟨heq, hset⟩
  · exact .inl hset

/-- What holds of a handle still does, if the change keeps it. -/
theorem handle_set_keeps (P : Handle → Prop) (hh : s.handle h ≠ .closed) (hp : P (s.handle h'))
    (hx : P (s.handle h) → P x) : P ((s.set h x inner).handle h') := by
  rw [handle_set hh]
  split_ifs with heq
  · exact hx (heq ▸ hp)
  · exact hp

/-- What the change leaves of its handle is as before for every handle. -/
theorem handle_set_congr {α : Type*} (f : Handle → α) (hh : s.handle h ≠ .closed)
    (hx : f x = f (s.handle h)) (h' : ℕ) :
    f ((s.set h x inner).handle h') = f (s.handle h') :=
  handle_set_keeps (fun y => f y = f (s.handle h')) hh rfl hx.trans

@[simp] theorem inner_add : (s.add x inner).inner = inner := rfl

@[simp] theorem sweeps_add : (s.add x inner).sweeps = s.sweeps := rfl

/-- A handle that began is the last one. -/
theorem handle_add (h : ℕ) :
    (s.add x inner).handle h = if h = s.handles.length then x else s.handle h :=
  List.getD_concat _ _ _ _

theorem handle_map_closed (inner : Inner) (sweeps : List Sweep) (h : ℕ) :
    handle ⟨inner, s.handles.map fun _ => .closed, sweeps⟩ h = .closed := by
  simp only [handle, List.getD_eq_getElem?_getD, List.getElem?_map]
  cases s.handles[h]? <;> rfl

/-- No handle, present or to come, reads below `w`. -/
def Safe (s : Sys) (w : ℕ) : Prop :=
  w ≤ s.inner.readTs ∧ ∀ h r, (s.handle h).readTs = some r → w ≤ r

end Sys

/-! ## The registry -/

theorem ne_closed_of_readTs (hr : x.readTs = some r) : x ≠ .closed := by
  rintro rfl
  cases hr

theorem Sys.ne_closed (hh : s.handle h = x) (hr : x.readTs = some r) : s.handle h ≠ .closed :=
  hh ▸ ne_closed_of_readTs hr

theorem readTs_of_set (hr : ((s.set h x inner).handle h').readTs = some r)
    (hh : s.handle h ≠ .closed) (hx : x.readTs = (s.handle h).readTs) :
    (s.handle h').readTs = some r :=
  (Sys.handle_set_congr Handle.readTs hh hx h').symm.trans hr

/-- The number of handles that read at `r`. -/
def Sys.readersAt (s : Sys) (r : ℕ) : ℕ := s.handles.countP fun x => x.readTs = some r

/-- The readers that are registered are the handles. -/
theorem readersAt_pos_iff : 0 < s.readersAt r ↔ ∃ h, (s.handle h).readTs = some r := by
  rw [Sys.readersAt, List.countP_pos_iff]
  constructor
  · rintro ⟨x, hx, hr⟩
    obtain ⟨h, hlt, rfl⟩ := List.getElem_of_mem hx
    exact ⟨h, by rw [Sys.handle, List.getD_eq_getElem _ _ hlt]; exact of_decide_eq_true hr⟩
  · rintro ⟨h, hr⟩
    have hlt := Sys.lt_of_handle (ne_closed_of_readTs hr)
    rw [Sys.handle, List.getD_eq_getElem _ _ hlt] at hr
    exact ⟨_, List.getElem_mem hlt, decide_eq_true hr⟩

theorem readersAt_add :
    (s.add x inner).readersAt r = s.readersAt r + if x.readTs = some r then 1 else 0 := by
  simp [Sys.readersAt, Sys.add, List.countP_singleton]

theorem readersAt_set (hh : s.handle h ≠ .closed) :
    (s.set h x inner).readersAt r =
      s.readersAt r - (if (s.handle h).readTs = some r then 1 else 0) +
        if x.readTs = some r then 1 else 0 := by
  have hlt := Sys.lt_of_handle hh
  rw [Sys.readersAt, Sys.set, List.countP_set hlt, Sys.handle, List.getD_eq_getElem _ _ hlt]
  simp only [decide_eq_true_eq]
  rfl

/-- The oracle registers the handles, none of which reads above the watermark. -/
structure Registered (s : Sys) : Prop where
  registers : s.inner.oracle.Registers s.readersAt
  le : ∀ {h r}, (s.handle h).readTs = some r → r ≤ s.inner.readTs

namespace Registered

/-- A handle begins, at the watermark. -/
theorem began (hreg : Registered s) (hr : x.readTs = some s.inner.readTs) :
    Registered (s.add x s.inner.beginReader.2) where
  registers := hreg.registers.beginReader.congr fun r => by
    rw [readersAt_add, hr]
    simp [Inner.readTs, eq_comm]
  le {h r} hr' := by
    rw [Sys.handle_add] at hr'
    split_ifs at hr'
    · rw [hr] at hr'
      exact (Option.some.inj hr').ge
    · exact hreg.le hr'

/-- A handle changes, and reads where it did. -/
theorem set (hreg : Registered s) (hh : s.handle h ≠ .closed)
    (hr : x.readTs = (s.handle h).readTs) (hreaders : inner.oracle.readers = s.inner.oracle.readers)
    (hle : s.inner.readTs ≤ inner.readTs) : Registered (s.set h x inner) where
  registers := (hreg.registers.congr_readers hreaders).congr fun r => by
    rw [readersAt_set hh, hr]
    split_ifs with hp
    · have := readersAt_pos_iff.2 ⟨h, hp⟩
      omega
    · rfl
  le {h' r} hr' := (hreg.le (readTs_of_set hr' hh hr)).trans hle

/-- A handle is dropped. -/
theorem ended (hreg : Registered s) (hr : (s.handle h).readTs = some r) :
    Registered (s.set h .closed (s.inner.endReader r)) where
  registers := hreg.registers.endReader.congr fun r' => by
    rw [readersAt_set (ne_closed_of_readTs hr), hr]
    simp [Handle.readTs, eq_comm]
  le {h' r'} hr' := by
    rw [Sys.handle_set (ne_closed_of_readTs hr)] at hr'
    split_ifs at hr'
    · cases hr'
    · exact (hreg.le hr').trans_eq (Oracle.readTs_endReader ..).symm

end Registered

/-! ## The timestamps in flight -/

/-- A handle holds the timestamp `t`. -/
def Sys.Holds (s : Sys) (t : ℕ) : Prop := ∃ h, (s.handle h).commitTs = some t

/-- A timestamp is held by an attempt in progress. -/
theorem Sys.exists_committing (ht : (s.handle h).commitTs = some t) :
    ∃ a stage, s.handle h = .committing a stage ∧ a.commitTs = t := by
  cases hh : s.handle h with
  | committing a stage =>
    rw [hh] at ht
    exact ⟨a, stage, rfl, Option.some.inj ht⟩
  | _ =>
    rw [hh] at ht
    cases ht

/-- No commit is in flight. -/
def Sys.Quiescent (s : Sys) : Prop := ∀ x ∈ s.handles, x.commitTs = none

instance (s : Sys) : Decidable s.Quiescent :=
  inferInstanceAs (Decidable (∀ x ∈ s.handles, x.commitTs = none))

theorem Sys.Quiescent.not_holds (hq : s.Quiescent) (t : ℕ) : ¬s.Holds t := by
  rintro ⟨h, ht⟩
  have hlt := Sys.lt_of_handle (s := s) (h := h) fun hc => by rw [hc] at ht; cases ht
  rw [Sys.handle, List.getD_eq_getElem _ _ hlt, hq _ (List.getElem_mem hlt)] at ht
  cases ht

/-- The oracle, having handed out the timestamps up to `N`, tracks those the
    handles hold, each held by one. -/
structure Timestamped (s : Sys) (N : ℕ) : Prop where
  tracks : s.inner.oracle.Tracks N s.Holds
  distinct : ∀ {h h' t}, (s.handle h).commitTs = some t → (s.handle h').commitTs = some t → h = h'

namespace Timestamped

/-- The handles hold the timestamps they did. -/
theorem congr (hts : Timestamped s N) (hc : ∀ h, (s'.handle h).commitTs = (s.handle h).commitTs)
    (hn : s'.inner.oracle.nextTs = s.inner.oracle.nextTs) (hr : s'.inner.readTs = s.inner.readTs)
    (hp : s'.inner.oracle.pending = s.inner.oracle.pending) : Timestamped s' N where
  tracks := (hts.tracks.congr_readers hn hr hp).congr fun t => by simp only [Sys.Holds, hc]
  distinct {h h' t} h1 h2 := hts.distinct (hc h ▸ h1) (hc h' ▸ h2)

theorem commitTs_add (hx : x.commitTs = none) (h : ℕ) :
    ((s.add x inner).handle h).commitTs = (s.handle h).commitTs := by
  rw [Sys.handle_add]
  split_ifs with heq
  · rw [hx, heq, Sys.handle, List.getD_eq_default _ _ le_rfl]
    rfl
  · rfl

theorem commitTs_set (hh : s.handle h ≠ .closed) (hx : x.commitTs = (s.handle h).commitTs)
    (h' : ℕ) : ((s.set h x inner).handle h').commitTs = (s.handle h').commitTs :=
  Sys.handle_set_congr Handle.commitTs hh hx h'

/-- A transaction takes the next timestamp. -/
theorem allocated (hts : Timestamped s N) (hN : N + 1 < 2 ^ 64) (hh : s.handle h ≠ .closed)
    (hnone : (s.handle h).commitTs = none) (hx : x.commitTs = some s.inner.oracle.nextTs) :
    s.inner.oracle.nextTs = N + 1 ∧ Timestamped (s.set h x s.inner.allocCommitTs.2) (N + 1) := by
  obtain ⟨hnext, htracks⟩ := hts.tracks.alloc hN
  change s.inner.oracle.nextTs = N + 1 at hnext
  rw [hnext] at hx
  -- the new timestamp was not held before
  have hnew : ∀ h', (s.handle h').commitTs ≠ some (N + 1) := fun h' hc => by
    have := hts.tracks.le_issued ⟨h', hc⟩
    omega
  refine ⟨hnext, htracks.congr fun t => ?_, fun {h₁ h₂ t} h1 h2 => ?_⟩
  · constructor
    · rintro ⟨h', hc⟩
      rw [Sys.handle_set hh] at hc
      split_ifs at hc
      · exact .inr (Option.some.inj (hx ▸ hc)).symm
      · exact .inl ⟨h', hc⟩
    · rintro (⟨h', hc⟩ | rfl)
      · refine ⟨h', ?_⟩
        rw [Sys.handle_set_of_ne, hc]
        rintro rfl
        rw [hnone] at hc
        cases hc
      · exact ⟨h, by rw [Sys.handle_set_self hh, hx]⟩
  · rw [Sys.handle_set hh] at h1 h2
    split_ifs at h1 h2 with heq₁ heq₂ heq₂
    · rw [heq₁, heq₂]
    · exact absurd h2 (Option.some.inj (hx ▸ h1) ▸ hnew h₂)
    · exact absurd h1 (Option.some.inj (hx ▸ h2) ▸ hnew h₁)
    · exact hts.distinct h1 h2

/-- A handle lets go of its timestamp, which is done. -/
theorem reported (hts : Timestamped s N) (ht : (s.handle h).commitTs = some t)
    (hx : x.commitTs = none) :
    s.inner.readTs ≤ (s.inner.commitDone t).readTs ∧
      Timestamped (s.set h x (s.inner.commitDone t)) N := by
  have hh : s.handle h ≠ .closed := fun hc => by rw [hc] at ht; cases ht
  obtain ⟨hle, htracks⟩ := hts.tracks.done ⟨h, ht⟩
  have hcommit : ∀ h' t', ((s.set h x (s.inner.commitDone t)).handle h').commitTs = some t' ↔
      (s.handle h').commitTs = some t' ∧ h' ≠ h := fun h' t' => by
    rw [Sys.handle_set hh]
    split_ifs with heq
    · simp [heq, hx]
    · simp [heq]
  refine ⟨hle, htracks.congr fun t' => ?_, fun {h₁ h₂ t'} h1 h2 => ?_⟩
  · simp only [Sys.Holds, hcommit]
    constructor
    · rintro ⟨h', hc, hne⟩
      exact ⟨⟨h', hc⟩, fun heq => hne (hts.distinct hc (heq ▸ ht))⟩
    · rintro ⟨⟨h', hc⟩, hne⟩
      refine ⟨h', hc, ?_⟩
      rintro rfl
      exact hne (Option.some.inj (hc.symm.trans ht))
  · exact hts.distinct ((hcommit _ _).1 h1).1 ((hcommit _ _).1 h2).1

end Timestamped

/-! ## Steps -/

/-- The oracle, having handed out the timestamps up to `N`, is in step with the handles. -/
structure Coordinated (s : Sys) (N : ℕ) : Prop extends Registered s, Timestamped s N

/-- An oracle with nothing in flight and no reader is in step with closed handles. -/
theorem Coordinated.of_closed (hclosed : ∀ h, s.handle h = .closed)
    (ht : s.inner.oracle.Tracks N fun _ => False) (hr : s.inner.oracle.Registers fun _ => 0) :
    Coordinated s N := by
  have hreads : ∀ {h r}, (s.handle h).readTs ≠ some r := fun {h r} => by
    rw [hclosed]
    exact nofun
  have hholds : ∀ {h t}, (s.handle h).commitTs ≠ some t := fun {h t} => by
    rw [hclosed]
    exact nofun
  refine ⟨⟨hr.congr fun r => ?_, fun h => absurd h hreads⟩,
    ht.congr fun t => iff_false_intro fun ⟨h, hc⟩ => hholds hc, fun hc => absurd hc hholds⟩
  exact Nat.eq_zero_of_not_pos fun hp => (readersAt_pos_iff.1 hp).elim fun h => hreads

/-- A handle changes, and keeps its timestamps. -/
theorem Coordinated.set (hc : Coordinated s N) (hh : s.handle h ≠ .closed)
    (hr : x.readTs = (s.handle h).readTs) (ht : x.commitTs = (s.handle h).commitTs)
    (ho : inner.oracle = s.inner.oracle) : Coordinated (s.set h x inner) N where
  toRegistered := hc.toRegistered.set hh hr (by rw [ho]) (by rw [Inner.readTs, Inner.readTs, ho])
  toTimestamped := hc.toTimestamped.congr (Timestamped.commitTs_set hh ht)
    (by rw [Sys.inner_set, ho]) (by rw [Sys.inner_set, Inner.readTs, ho]; rfl)
    (by rw [Sys.inner_set, ho])

/-- A handle is dropped. -/
theorem Coordinated.ended (hc : Coordinated s N) (hr : (s.handle h).readTs = some r)
    (ht : (s.handle h).commitTs = none) :
    Coordinated (s.set h .closed (s.inner.endReader r)) N where
  toRegistered := hc.toRegistered.ended hr
  toTimestamped := hc.toTimestamped.congr
    (Timestamped.commitTs_set (ne_closed_of_readTs hr) ht.symm)
    (Oracle.nextTs_endReader ..) (Oracle.readTs_endReader ..) (Oracle.pending_endReader ..)

/-- The watermark does not move back. -/
theorem Timestamped.readTs_le (hts : Timestamped s N) (hstep : Step s e s')
    (hopen : ∀ L, e ≠ .opened L) : s.inner.readTs ≤ s'.inner.readTs := by
  cases hstep with
  | @reported h a result hh =>
    exact (hts.reported (x := .finished a.readTs result) (congrArg Handle.commitTs hh) rfl).1
  | returned | droppedSnapshot | droppedTransaction => exact (Oracle.readTs_endReader ..).ge
  | opened => exact absurd rfl (hopen _)
  | _ => exact le_rfl

/-- The oracle stays in step with the handles. -/
theorem Coordinated.step (hc : Coordinated s N) (hstep : Step s e s')
    (hN : e.allocates → N + 1 < 2 ^ 64) (hopen : ∀ L, e ≠ .opened L) :
    s.inner.readTs ≤ s'.inner.readTs ∧ Coordinated s' (e.issue N) := by
  refine ⟨hc.readTs_le hstep hopen, ?_⟩
  cases hstep with
  | began kind =>
    have hr : (Handle.begin s.inner.readTs kind).readTs = some s.inner.readTs := by
      cases kind <;> rfl
    have ht : (Handle.begin s.inner.readTs kind).commitTs = none := by cases kind <;> rfl
    exact ⟨hc.toRegistered.began hr,
      hc.toTimestamped.congr (Timestamped.commitTs_add ht) rfl rfl rfl⟩
  | gotSnapshot => exact hc
  | gotStore hh | gotOwn hh | wrote hh | readOnly hh | conflicted hh | committed hh
  | appending hh | appended hh | appendFailed hh =>
    exact hc.set (Sys.ne_closed hh rfl) (congrArg Handle.readTs hh).symm
      (congrArg Handle.commitTs hh).symm rfl
  -- the timestamp handed out is held from now on
  | @allocated h _ _ hh hid hr hcts =>
    have hclosed : s.handle h ≠ .closed := Sys.ne_closed hh rfl
    obtain ⟨hnext, hts⟩ := hc.toTimestamped.allocated (x := .committing _ .allocated) (hN rfl)
      hclosed (by rw [hh]; rfl) (congrArg some hcts)
    rw [Event.issue, hcts, hnext]
    exact ⟨hc.toRegistered.set hclosed (by rw [hh]; exact congrArg some hr) rfl le_rfl, hts⟩
  -- the timestamp is not held any more, while the handle reads on
  | @reported h a result hh =>
    have ht : (s.handle h).commitTs = some a.commitTs := by rw [hh]; rfl
    obtain ⟨hle, hts⟩ := hc.toTimestamped.reported (x := .finished a.readTs result) ht rfl
    exact ⟨hc.toRegistered.set (Sys.ne_closed hh rfl) (by rw [hh]; rfl)
      (Oracle.readers_commitDone ..) hle, hts⟩
  | returned hh | droppedSnapshot hh | droppedTransaction hh =>
    exact hc.ended (by rw [hh]; rfl) (by rw [hh]; rfl)
  | swept | pruned => exact ⟨⟨hc.registers, hc.le⟩, ⟨hc.tracks, hc.distinct⟩⟩
  | opened => exact absurd rfl (hopen _)

/-- The low watermark is safe. -/
theorem Registered.safe_lowWatermark (hreg : Registered s) : s.Safe s.inner.oracle.lowWatermark :=
  ⟨hreg.registers.lowWatermark_le_readTs fun r hr => by
      obtain ⟨h, hr⟩ := readersAt_pos_iff.1 hr
      exact hreg.le hr,
    fun h r hr => hreg.registers.lowWatermark_le (readersAt_pos_iff.2 ⟨h, hr⟩)⟩

/-- A handle was there before a step, at the timestamp it reads at, or begins at
    the watermark. -/
theorem Step.readTs_handle (hstep : Step s e s') (hr : (s'.handle h).readTs = some r) :
    (s.handle h).readTs = some r ∨ (r = s.inner.readTs ∧ ∃ kind, e = .began h kind r) := by
  cases hstep with
  | began kind =>
    rw [Sys.handle_add] at hr
    split_ifs at hr with heq
    · obtain rfl : s.inner.readTs = r := by cases kind <;> exact Option.some.inj hr
      exact .inr ⟨rfl, kind, heq ▸ rfl⟩
    · exact .inl hr
  | gotSnapshot | swept | pruned => exact .inl hr
  | gotStore hh | gotOwn hh | wrote hh | readOnly hh | conflicted hh | committed hh
  | appending hh | appended hh | appendFailed hh | reported hh =>
    exact .inl (readTs_of_set hr (Sys.ne_closed hh rfl) (congrArg Handle.readTs hh).symm)
  | allocated hh hid hr' =>
    exact .inl (readTs_of_set hr (Sys.ne_closed hh rfl)
      ((congrArg some hr').trans (congrArg Handle.readTs hh).symm))
  | returned hh | droppedSnapshot hh | droppedTransaction hh =>
    rw [Sys.handle_set (Sys.ne_closed hh rfl)] at hr
    split_ifs at hr
    · cases hr
    · exact .inl hr
  | opened =>
    rw [Sys.handle_map_closed] at hr
    cases hr

/-- A safe timestamp stays so. -/
theorem Sys.Safe.step {w : ℕ} (hw : s.Safe w) (hstep : Step s e s')
    (hle : s.inner.readTs ≤ s'.inner.readTs) : s'.Safe w := by
  refine ⟨hw.1.trans hle, fun h r hr => ?_⟩
  rcases hstep.readTs_handle hr with hr | ⟨rfl, -⟩
  · exact hw.2 h r hr
  · exact hw.1

end TxnDb
