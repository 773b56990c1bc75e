import TxnDb.Timestamps.Desk

/-!
# Timestamps

What holds of an oracle, whatever its callers do.

* `watermark_exact`: if they report only timestamps they were handed out, each at
  most once, then the watermark is the largest timestamp up to which everything
  handed out was reported, in whatever order;
* `lowWatermark_bounds`: whatever they report, the registry counts the readers
  alive, and the low watermark is at or below those alive, those to come, and the
  low watermarks to come.

The first follows from what every call does to `Oracle.Tracks` (`Served`), the
other from what it does to `Oracle.Registers`, and the watermark not moving back
(`Watched`).
-/

namespace TxnDb

variable {o : Oracle} {d d' : Desk} {tr tr' : List Answer} {a : Answer} {highest h r t w : ℕ}

/-! ## The watermark -/

/-- The invariant of an oracle that has handed out the timestamps above `highest`. -/
structure Served (highest : ℕ) (d : Desk) : Prop where
  tracks : d.oracle.Tracks (d.issued highest) d.InFlight
  allocated : ∀ t, t ∈ d.allocated ↔ highest < t ∧ t ≤ d.issued highest
  reported : ∀ t ∈ d.reported, t ∈ d.allocated

namespace Served

theorem start (h₀ : o.Starts highest) (hlt : highest < 2 ^ 64) : Served highest (.new o) := by
  -- the timestamps recovered were not handed out
  have hflight : ∀ t, (Desk.new o).InFlight t ↔ False := fun t =>
    iff_false_intro fun ht => List.not_mem_nil ht.1
  have htracks : o.Tracks highest fun _ => False := by
    rcases h₀ with ⟨rfl, rfl⟩ | rfl
    · exact Oracle.tracks_new
    · exact Oracle.tracks_recovered hlt
  refine ⟨htracks.congr hflight, fun t => ?_, nofun⟩
  exact iff_of_false List.not_mem_nil fun ⟨hlt, hle⟩ => absurd hlt (not_lt.2 hle)

/-- Every call preserves the invariant, and the watermark does not move back. -/
theorem step (hs : Served highest d) (hstep : Trace.Step Desk.step d a d')
    (hlt : d'.issued highest < 2 ^ 64) :
    Served highest d' ∧ d.oracle.readTs ≤ d'.oracle.readTs := by
  obtain ⟨hserve, hflight⟩ := Desk.step_inv hstep
  rcases Desk.serve_inv hserve with
    ⟨-, rfl⟩ | ⟨t, rfl, rfl⟩ | ⟨-, rfl⟩ | ⟨h, t, -, ht, rfl⟩ | ⟨-, rfl⟩
  · -- a timestamp is handed out: the next one
    have hissued : Desk.issued highest { d with
        oracle := d.oracle.allocCommitTs.2
        allocated := d.allocated ++ [d.oracle.allocCommitTs.1] } = d.issued highest + 1 := by
      simp [Desk.issued, Nat.add_assoc]
    rw [hissued] at hlt
    obtain ⟨hnext, htracks⟩ := hs.tracks.alloc hlt
    have hle := hs.tracks.le
    rw [hnext] at hissued ⊢
    refine ⟨⟨?_, fun t => ?_, fun t ht => List.mem_append_left _ (hs.reported t ht)⟩, le_rfl⟩
    · rw [hissued]
      refine htracks.congr fun t => ?_
      simp only [Desk.InFlight, List.mem_append, List.mem_singleton, or_and_right]
      refine or_congr_right ⟨And.left, fun ht => ⟨ht, fun hrep => ?_⟩⟩
      have := ((hs.allocated t).1 (hs.reported t hrep)).2
      omega
    · rw [hissued, List.mem_append, List.mem_singleton, hs.allocated]
      have : highest ≤ d.issued highest := Nat.le_add_right _ _
      omega
  · -- a timestamp is reported
    have ht := hflight t rfl
    obtain ⟨hle, htracks⟩ := hs.tracks.done ht
    refine ⟨⟨htracks.congr fun t' => ?_, hs.allocated, fun t' ht' => ?_⟩, hle⟩
    · simp [Desk.InFlight, and_assoc]
    · rcases List.mem_append.1 ht' with ht' | ht'
      · exact hs.reported t' ht'
      · exact List.mem_singleton.1 ht' ▸ ht.1
  · exact ⟨⟨hs.tracks.congr_readers rfl rfl rfl, hs.allocated, hs.reported⟩, le_rfl⟩
  · exact ⟨⟨hs.tracks.congr_readers (Oracle.nextTs_endReader ..) (Oracle.readTs_endReader ..)
      (Oracle.pending_endReader ..), hs.allocated, hs.reported⟩, (Oracle.readTs_endReader ..).ge⟩
  · exact ⟨hs, le_rfl⟩

/-- A call does not take timestamps back. -/
theorem issued_le (hstep : Trace.Step Desk.step d a d') :
    d.issued highest ≤ d'.issued highest := by
  rcases Desk.serve_inv (Desk.step_inv hstep).1 with
    ⟨-, rfl⟩ | ⟨_, -, rfl⟩ | ⟨-, rfl⟩ | ⟨_, _, -, -, rfl⟩ | ⟨-, rfl⟩
  · simp [Desk.issued]
  all_goals exact le_rfl

theorem issued_le_of_run (hrun : Calls d tr d') : d.issued highest ≤ d'.issued highest :=
  hrun.invariant (motive := fun _ d' => d.issued highest ≤ d'.issued highest) le_rfl
    fun _ ih hstep => ih.trans (issued_le hstep)

/-- The invariant holds in every run that goes on, with any relation that every call
    preserves, given the invariant. -/
theorem invariant {motive : List Answer → Desk → Prop} (hs : Served highest d)
    (hrun : Calls d tr d') (hlt : d'.issued highest < 2 ^ 64) (init : motive [] d)
    (step : ∀ {tr d a d'}, Served highest d → d.oracle.readTs ≤ d'.oracle.readTs → motive tr d →
      Trace.Step Desk.step d a d' → motive (tr ++ [a]) d') : Served highest d' ∧ motive tr d' := by
  refine hrun.invariant (motive := fun tr d' => d'.issued highest < 2 ^ 64 →
    Served highest d' ∧ motive tr d') (fun _ => ⟨hs, init⟩) (fun _ ih hstep hlt => ?_) hlt
  obtain ⟨hs, hm⟩ := ih ((issued_le hstep).trans_lt hlt)
  obtain ⟨hs', hle⟩ := hs.step hstep hlt
  exact ⟨hs', step hs hle hm hstep⟩

/-- The invariant holds in every run of a new oracle. -/
theorem of_run (h₀ : o.Starts highest) (hrun : Calls (.new o) tr d)
    (hlt : d.issued highest < 2 ^ 64) : Served highest d := by
  have hle : highest ≤ d.issued highest := Nat.le_add_right _ _
  exact ((start h₀ (hle.trans_lt hlt)).invariant (motive := fun _ _ => True) hrun hlt trivial
    fun _ _ _ _ => trivial).1

/-- The timestamps done ahead are those reported above the watermark. -/
theorem mem_ahead (hs : Served highest d) :
    t ∈ d.oracle.pending.ahead ↔ t ∈ d.reported ∧ d.oracle.readTs < t := by
  have hflight := hs.tracks.inFlight t
  constructor
  · intro ht
    obtain ⟨hlt, hle⟩ := hs.tracks.ahead t ht
    have hhigh : highest < t := by
      by_contra hge
      -- what was recovered is at or below the watermark, with which it began
      have hle' := (hs.tracks.le_readTs_iff (Nat.le_add_right highest _)).2 fun t ht hf =>
        absurd ((hs.allocated t).1 hf.1).1 (not_lt.2 ht)
      omega
    refine ⟨?_, by omega⟩
    by_contra hrep
    exact (hflight.1 ⟨(hs.allocated t).2 ⟨hhigh, hle⟩, hrep⟩).2.2 ht
  · rintro ⟨hrep, hlt⟩
    by_contra hahead
    exact (hflight.2 ⟨hlt, ((hs.allocated t).1 (hs.reported t hrep)).2, hahead⟩).2 hrep

end Served

/-- The watermark is the largest timestamp up to which what was handed out was
    reported; the oracle having handed out the timestamps above `highest`. -/
structure Exact (highest : ℕ) (d : Desk) : Prop where
  /-- The next timestamp is the one after the last, as a `u64`. -/
  nextTs : d.oracle.nextTs = wrap (d.issued highest + 1)
  allocated : ∀ t, t ∈ d.allocated ↔ highest < t ∧ t < d.issued highest + 1
  doneUpto : d.oracle.pending.doneUpto = d.oracle.readTs
  greatest : IsGreatest {T | T < d.issued highest + 1 ∧ ∀ t ∈ d.allocated, t ≤ T → t ∈ d.reported}
    d.oracle.readTs
  ahead : ∀ t, t ∈ d.oracle.pending.ahead ↔ t ∈ d.reported ∧ d.oracle.readTs < t
  stops : d.oracle.readTs + 1 ∉ d.oracle.pending.ahead
  finished : (∀ t ∈ d.allocated, t ∈ d.reported) →
    d.oracle.readTs = d.issued highest ∧ d.oracle.pending.ahead = ∅

theorem Served.exact (hs : Served highest d) : Exact highest d := by
  have hle := hs.tracks.le
  refine ⟨hs.tracks.nextTs, fun t => by rw [hs.allocated, Nat.lt_succ_iff], hs.tracks.doneUpto,
    ⟨⟨Nat.lt_succ_of_le hle, fun t ht htr => ?_⟩, fun T ⟨hT, hrep⟩ => ?_⟩, fun t => hs.mem_ahead,
    fun h => absurd (hs.tracks.ahead _ h).1 (lt_irrefl _), fun hfin => ?_⟩
  · by_contra hrep
    exact absurd (hs.tracks.readTs_lt ⟨ht, hrep⟩) (not_lt.2 htr)
  · exact (hs.tracks.le_readTs_iff (Nat.le_of_lt_succ hT)).2 fun t ht hf => hf.2 (hrep t hf.1 ht)
  · have heq : d.oracle.readTs = d.issued highest :=
      hs.tracks.readTs_eq fun t hf => hf.2 (hfin t hf.1)
    refine ⟨heq, Finset.eq_empty_of_forall_notMem fun t ht => ?_⟩
    have := hs.tracks.ahead t ht
    omega

/-- In every run of an oracle, new or recovered, the watermark is exact after every
    call, and does not move back. -/
theorem watermark_exact (h₀ : o.Starts highest) (hrun : Calls (.new o) tr d)
    (hrun' : Calls d tr' d') (hlt : d'.issued highest < 2 ^ 64) :
    Exact highest d' ∧ d.oracle.readTs ≤ d'.oracle.readTs := by
  have hs := Served.of_run h₀ hrun ((Served.issued_le_of_run hrun').trans_lt hlt)
  obtain ⟨hs', hread⟩ := hs.invariant
    (motive := fun _ d' => d.oracle.readTs ≤ d'.oracle.readTs) hrun' hlt le_rfl
    fun _ hle ih _ => ih.trans hle
  exact ⟨hs'.exact, hread⟩

/-- Two timestamps are reported in the opposite order. -/
theorem watermark_exact_crossed : ∃ d d',
    Calls (.new .new) [.allocated 1, .allocated 2, .reported 2] d ∧ Calls d [.reported 1] d' ∧
      Exact 0 d' ∧ d.oracle.readTs ≤ d'.oracle.readTs := by
  have hexec : Trace.exec Desk.step (.new .new) [.allocCommitTs, .allocCommitTs, .commitDone 2,
      .commitDone 1] = some ([.allocated 1, .allocated 2, .reported 2] ++ [.reported 1], _) := rfl
  obtain ⟨d, hrun, hrun'⟩ := Trace.Run.split (Trace.run_of_exec hexec)
  exact ⟨d, _, hrun, hrun', watermark_exact (.inl ⟨rfl, rfl⟩) hrun hrun' (by decide)⟩

/-! ## The low watermark -/

/-- The runs of calls, whatever is reported. -/
abbrev Serves (d : Desk) (tr : List Answer) (d' : Desk) : Prop := Trace.Run Desk.serve d tr d'

/-- Every call keeps the count of the readers alive. -/
theorem registers_serve (hd : d.oracle.Registers d.live)
    (hserve : Trace.Step Desk.serve d a d') : d'.oracle.Registers d'.live := by
  rcases Desk.serve_inv hserve with
    ⟨-, rfl⟩ | ⟨_, -, rfl⟩ | ⟨-, rfl⟩ | ⟨_, _, -, ht, rfl⟩ | ⟨-, rfl⟩
  · exact hd
  · exact hd.congr_readers (Oracle.readers_commitDone ..)
  · exact hd.beginReader.congr fun r => Desk.live_concat
  · obtain ⟨hlt, hget⟩ := List.getElem?_eq_some_iff.1 ht
    exact hd.endReader.congr fun r => Desk.live_set hlt hget
  · exact hd

theorem registers_of_serves (h₀ : o.Starts highest) (hrun : Serves (.new o) tr d) :
    d.oracle.Registers d.live := by
  refine hrun.invariant (motive := fun _ d => d.oracle.Registers d.live) ?_
    fun _ hd hserve => registers_serve hd hserve
  rcases h₀ with ⟨rfl, rfl⟩ | rfl
  · exact Oracle.registers_new
  · exact Oracle.registers_recovered

/-- The registry holds, for each timestamp, the number of readers alive at it, and
    the low watermark is a bound for those alive. -/
structure Bounds (d : Desk) : Prop where
  lookup : ∀ r, d.oracle.readers.lookup r = if d.live r = 0 then none else some (d.live r)
  /-- A reader that ends finds its entry. -/
  found : ∀ h r : ℕ, d.readers[h]? = some (some r) →
    ∃ count, d.oracle.readers.lookup r = some count ∧ 0 < count
  le : ∀ h r : ℕ, d.readers[h]? = some (some r) → d.oracle.lowWatermark ≤ r

theorem bounds_of_registers (hd : d.oracle.Registers d.live) : Bounds d := by
  have hpos : ∀ h r : ℕ, d.readers[h]? = some (some r) → 0 < d.live r := fun h r hr =>
    List.count_pos_iff.2 (List.mem_of_getElem? hr)
  refine ⟨hd, fun h r hr => ⟨d.live r, ?_, hpos h r hr⟩,
    fun h r hr => hd.lowWatermark_le (hpos h r hr)⟩
  rw [hd, if_neg (hpos h r hr).ne']

/-- The invariant of the watermark, whatever is reported: it is as far as the reports have
    moved it, at most, and no reader is above it. -/
structure Watched (highest : ℕ) (d : Desk) : Prop where
  doneUpto : d.oracle.pending.doneUpto = d.oracle.readTs
  bounded : d.oracle.readTs + d.oracle.pending.ahead.card ≤ highest + d.reported.length
  le : ∀ r, some r ∈ d.readers → r ≤ d.oracle.readTs

namespace Watched

theorem start (h₀ : o.Starts highest) : Watched highest (.new o) := by
  rcases h₀ with ⟨rfl, rfl⟩ | rfl <;> exact ⟨rfl, le_rfl, nofun⟩

/-- Every call preserves the invariant, and the watermark does not move back. -/
theorem step (hw : Watched highest d) (hserve : Trace.Step Desk.serve d a d')
    (hlt : highest + d'.reported.length < 2 ^ 64) :
    Watched highest d' ∧ d.oracle.readTs ≤ d'.oracle.readTs := by
  rcases Desk.serve_inv hserve with
    ⟨-, rfl⟩ | ⟨t, -, rfl⟩ | ⟨-, rfl⟩ | ⟨_, _, -, -, rfl⟩ | ⟨-, rfl⟩
  · exact ⟨⟨hw.doneUpto, hw.bounded, hw.le⟩, le_rfl⟩
  · rw [List.length_append, List.length_singleton] at hlt
    have hbounded := hw.bounded
    obtain ⟨hdone, hle, hcard⟩ := Oracle.commitDone_advance t hw.doneUpto (by omega)
    refine ⟨⟨hdone, ?_, fun r hr => (hw.le r hr).trans hle⟩, hle⟩
    rw [List.length_append, List.length_singleton]
    exact hcard.trans (by omega)
  · refine ⟨⟨hw.doneUpto, hw.bounded, fun r hr => ?_⟩, le_rfl⟩
    rcases List.mem_append.1 hr with hr | hr
    · exact hw.le r hr
    · exact (Option.some.inj (List.mem_singleton.1 hr)).le
  · refine ⟨⟨?_, ?_, fun r hr => ?_⟩, (Oracle.readTs_endReader ..).ge⟩
    · rw [Oracle.pending_endReader, Oracle.readTs_endReader, hw.doneUpto]
    · rw [Oracle.pending_endReader, Oracle.readTs_endReader]
      exact hw.bounded
    · rw [Oracle.readTs_endReader]
      exact hw.le r ((List.mem_or_eq_of_mem_set hr).resolve_right nofun)
  · exact ⟨hw, le_rfl⟩

theorem reported_le (hserve : Trace.Step Desk.serve d a d') :
    d.reported.length ≤ d'.reported.length := by
  rcases Desk.serve_inv hserve with
    ⟨-, rfl⟩ | ⟨_, -, rfl⟩ | ⟨-, rfl⟩ | ⟨_, _, -, -, rfl⟩ | ⟨-, rfl⟩
  · exact le_rfl
  · simp
  all_goals exact le_rfl

theorem reported_le_of_serves (hrun : Serves d tr d') :
    d.reported.length ≤ d'.reported.length :=
  hrun.invariant (motive := fun _ d' => d.reported.length ≤ d'.reported.length) le_rfl
    fun _ ih hserve => ih.trans (reported_le hserve)

/-- The invariant holds in every run that goes on, with any relation that every call
    preserves, given the invariant. -/
theorem invariant {motive : List Answer → Desk → Prop} (hw : Watched highest d)
    (hrun : Serves d tr d') (hlt : highest + d'.reported.length < 2 ^ 64) (init : motive [] d)
    (step : ∀ {tr d a d'}, Watched highest d → d.oracle.readTs ≤ d'.oracle.readTs → motive tr d →
      Trace.Step Desk.serve d a d' → motive (tr ++ [a]) d') :
    Watched highest d' ∧ motive tr d' := by
  refine hrun.invariant (motive := fun tr d' => highest + d'.reported.length < 2 ^ 64 →
    Watched highest d' ∧ motive tr d') (fun _ => ⟨hw, init⟩) (fun _ ih hserve hlt => ?_) hlt
  obtain ⟨hw, hm⟩ := ih ((Nat.add_le_add_left (reported_le hserve) _).trans_lt hlt)
  obtain ⟨hw', hle⟩ := hw.step hserve hlt
  exact ⟨hw', step hw hle hm hserve⟩

end Watched

/-- The readers alive, and the watermark, where readers begin, are at or above `w`. -/
def Desk.AtLeast (d : Desk) (w : ℕ) : Prop :=
  w ≤ d.oracle.readTs ∧ ∀ r, some r ∈ d.readers → w ≤ r

theorem Watched.atLeast_lowWatermark (hw : Watched highest d)
    (hd : d.oracle.Registers d.live) : d.AtLeast d.oracle.lowWatermark :=
  ⟨hd.lowWatermark_le_readTs fun r hr => hw.le r (List.count_pos_iff.1 hr),
    fun _ hr => hd.lowWatermark_le (List.count_pos_iff.2 hr)⟩

namespace Desk.AtLeast

/-- A reader begins at the watermark, and then stays where it is. -/
theorem step (hw : d.AtLeast w) (hread : d.oracle.readTs ≤ d'.oracle.readTs)
    (hserve : Trace.Step Desk.serve d a d') : d'.AtLeast w := by
  refine ⟨hw.1.trans hread, fun r hr => ?_⟩
  rcases Desk.serve_inv hserve with
    ⟨-, rfl⟩ | ⟨_, -, rfl⟩ | ⟨-, rfl⟩ | ⟨_, _, -, -, rfl⟩ | ⟨-, rfl⟩
  · exact hw.2 r hr
  · exact hw.2 r hr
  · rcases List.mem_append.1 hr with hr | hr
    · exact hw.2 r hr
    · exact hw.1.trans_eq (Option.some.inj (List.mem_singleton.1 hr)).symm
  · exact hw.2 r ((List.mem_or_eq_of_mem_set hr).resolve_right nofun)
  · exact hw.2 r hr

theorem of_began (hw : d.AtLeast w) (hserve : Trace.Step Desk.serve d (.began h r) d') :
    w ≤ r := by
  rcases Desk.serve_inv hserve with
    ⟨⟨⟩, -⟩ | ⟨_, ⟨⟩, -⟩ | ⟨⟨⟩, -⟩ | ⟨_, _, ⟨⟩, -⟩ | ⟨⟨⟩, -⟩
  exact hw.1

/-- The oldest reader, or the watermark, is at or above `w`. -/
theorem of_lowWatermark {w' : ℕ} (hw : d.AtLeast w) (hd : d.oracle.Registers d.live)
    (hserve : Trace.Step Desk.serve d (.lowWatermark w') d') : w ≤ w' := by
  rcases Desk.serve_inv hserve with
    ⟨⟨⟩, -⟩ | ⟨_, ⟨⟩, -⟩ | ⟨⟨⟩, -⟩ | ⟨_, _, ⟨⟩, -⟩ | ⟨⟨⟩, -⟩
  rw [Oracle.lowWatermark]
  cases hmin : d.oracle.readers.keys.min? with
  | none => exact hw.1
  | some oldest =>
    have hmem := AList.mem_keys.2 (List.min?_eq_some_iff.1 hmin).1
    exact hw.2 oldest (List.count_pos_iff.1 (hd.mem_iff.1 hmem))

end Desk.AtLeast

/-- In every run of an oracle, new or recovered, the registry counts the readers
    alive; and while fewer than `2 ^ 64` timestamps are reported, whichever they are,
    the low watermark is at or below the readers alive, those to begin, and the low
    watermarks to come. -/
theorem lowWatermark_bounds (h₀ : o.Starts highest) (hrun : Serves (.new o) tr d) :
    Bounds d ∧ ∀ tr' d', Serves d tr' d' → highest + d'.reported.length < 2 ^ 64 →
      (∀ h r, .began h r ∈ tr' → d.oracle.lowWatermark ≤ r) ∧
        ∀ w, .lowWatermark w ∈ tr' → d.oracle.lowWatermark ≤ w := by
  have hd := registers_of_serves h₀ hrun
  refine ⟨bounds_of_registers hd, fun tr' d' hrun' hlt => ?_⟩
  have hle := Watched.reported_le_of_serves hrun'
  obtain ⟨hw, -⟩ := (Watched.start h₀).invariant (motive := fun _ _ => True) hrun (by omega) trivial
    fun _ _ _ _ => trivial
  -- no reader goes below, and none begins below, the watermark not moving back
  obtain ⟨-, -, -, hanswers⟩ := hw.invariant (motive := fun tr' d' =>
    d'.oracle.Registers d'.live ∧ d'.AtLeast d.oracle.lowWatermark ∧
      (∀ h r, .began h r ∈ tr' → d.oracle.lowWatermark ≤ r) ∧
        ∀ w, .lowWatermark w ∈ tr' → d.oracle.lowWatermark ≤ w) hrun' hlt
    ⟨hd, hw.atLeast_lowWatermark hd, nofun, nofun⟩
    fun _ hread ⟨hd', hat, hbegan, hlow⟩ hserve => by
      refine ⟨registers_serve hd' hserve, hat.step hread hserve, fun h r hr => ?_, fun w' hw' => ?_⟩
      · rcases List.mem_append.1 hr with hr | hr
        · exact hbegan h r hr
        · exact hat.of_began (List.mem_singleton.1 hr ▸ hserve)
      · rcases List.mem_append.1 hw' with hw' | hw'
        · exact hlow w' hw'
        · exact hat.of_lowWatermark hd' (List.mem_singleton.1 hw' ▸ hserve)
  exact hanswers

/-- A reader begins while the low watermark is at an older one. -/
theorem lowWatermark_bounds_later : ∃ d d', Serves (.new .new) [.began 0 0] d ∧
    Serves d [.allocated 1, .reported 1, .began 1 1, .ended 0 0, .lowWatermark 1] d' ∧
      d.oracle.lowWatermark ≤ 1 := by
  have hexec : Trace.exec Desk.serve (.new .new) [.beginReader, .allocCommitTs, .commitDone 1,
      .beginReader, .endReader 0, .lowWatermark] = some ([.began 0 0] ++ [.allocated 1,
        .reported 1, .began 1 1, .ended 0 0, .lowWatermark 1], _) := rfl
  obtain ⟨d, hrun, hrun'⟩ := Trace.Run.split (Trace.run_of_exec hexec)
  exact ⟨d, _, hrun, hrun',
    ((lowWatermark_bounds (.inl ⟨rfl, rfl⟩) hrun).2 _ _ hrun' (by decide)).2 1 (by simp)⟩

end TxnDb
