import TxnDb.Isolation
import TxnDb.Outcomes

/-!
# Visibility of a commit that returned

The watermark reaches a timestamp once all those up to it are reported, whatever
has returned in between. So what begins after a commit has returned sees it iff
every timestamp below its own was reported (`visible_iff_settled`): a commit
that returns while another is in flight below it is not seen by its own client
(`overtaken`).
-/

namespace TxnDb

open Mvcc

variable {tr pre post : List Event} {s₀ s : Sys} {h h' r c : ℕ} {a : Attempt} {k : Key}
  {v : Option Value} {kind : Kind} {durable : Bool}

/-- Every timestamp handed out below `c` was reported. -/
def Settled (tr : List Event) (c : ℕ) : Prop :=
  ∀ a, .allocated a ∈ tr → a.commitTs < c → .reported a ∈ tr

/-- The watermark has reached the timestamp of a commit that succeeded iff those
    below were reported. -/
theorem Outcomes.le_readTs_iff (ho : Outcomes tr s) (hinv : Inv tr s)
    (hsucc : Succeeded (cycle tr) durable h c a) : c ≤ s.inner.readTs ↔ Settled (cycle tr) c := by
  have ha : a ∈ history tr := mem_history_of_mem_cycle hsucc.committed
  have hc := hsucc.commitTs
  have hiff := hinv.tracks.le_readTs_iff (hc ▸ hinv.commit_le a ha)
  constructor
  · intro hle b hb hbc
    refine (ho.held hb).resolve_left fun ⟨stage, hh⟩ => ?_
    exact hiff.1 hle b.commitTs hbc.le ⟨b.id, congrArg Handle.commitTs hh⟩
  · intro hsettled
    refine hiff.2 fun t ht ⟨i, hi⟩ => ?_
    -- the attempt that holds the timestamp is not reported
    obtain ⟨b, stage, hh, rfl⟩ := Sys.exists_committing hi
    have hrep : .reported b ∈ cycle tr := by
      rcases ht.lt_or_eq with hlt | heq
      · exact hsettled b (ho.allocated hh) hlt
      · obtain rfl := ((hinv.attempts hh).eq_of_mem a ha (hc.trans heq.symm)).1
        exact hsucc.reported
    have hd := (ho.reported hrep).2
    rw [(hinv.attempts hh).id, hh] at hd
    exact hd

/-- The handle `h'`, that began at `r` after the events `pre`, reads at or above the
    timestamp `c` that the commit of `h` returned, and sees what it wrote, or later
    transactions. -/
def SeesReturned (tr pre : List Event) (h c h' r : ℕ) : Prop :=
  ∃ a, .committed a ∈ cycle pre ∧ a.id = h ∧ a.commitTs = c ∧ Program pre h a ∧ c ≤ r ∧
    SeesTxn tr h' a

/-- In every run, what begins after a commit has returned reads at or above its
    timestamp, and sees it (or later transactions), iff every timestamp handed out
    below was reported. -/
theorem visible_iff_settled (h₀ : s₀.Fresh) (hrun : Run s₀ tr s) (hlt : allocations tr < 2 ^ 64)
    (hfit : Recoverable tr) (htr : tr = pre ++ .began h' kind r :: post)
    (hpost : ∀ L, .opened L ∉ post) (hret : .returned h (.ok c) ∈ cycle pre)
    (hw : .wrote h k v ∈ pre) : SeesReturned tr pre h c h' r ↔ Settled (cycle pre) c := by
  have hr := reached_of_run h₀ hrun hlt hfit
  subst htr
  obtain ⟨m, m', hpre, ⟨act, hact⟩, -⟩ := Trace.Run.cut hrun
  have hltpre : allocations pre < 2 ^ 64 := allocations_lt_of_append hlt
  have hm := reached_of_run h₀ hpre hltpre hfit.of_append
  have ho := outcomes_of_run h₀ hpre hltpre hfit.of_append
  have hstep := step_inv hact
  obtain ⟨hname, hread⟩ : h' = m.handles.length ∧ r = m.inner.readTs := by
    cases hstep with
    | began => exact ⟨rfl, rfl⟩
  obtain ⟨a, hsucc⟩ := (ho.returned hret).resolve_left fun hro =>
    hm.not_readOnly hw (mem_of_mem_cycle hro)
  have hcycle : cycle (pre ++ .began h' kind r :: post) = cycle pre ++ .began h' kind r :: post :=
    cycle_append fun L hL => (List.mem_cons.1 hL).elim nofun (hpost L)
  have ha : a ∈ history (pre ++ .began h' kind r :: post) :=
    mem_history_of_mem_cycle (hcycle ▸ List.mem_append_left _ hsucc.committed)
  rw [← ho.le_readTs_iff hm.toInv hsucc, ← hread]
  refine ⟨fun ⟨_, _, _, _, _, hle, _⟩ => hle, fun hle => ⟨a, hsucc.committed, hsucc.id,
    hsucc.commitTs, hsucc.id ▸ hm.programs (mem_of_mem_cycle hsucc.committed), hle,
    fun r' k' v' hg hak => ?_⟩⟩
  -- the handle reads after it began, at the timestamp it began at
  obtain ⟨kind', hb⟩ := hr.got hg
  obtain ⟨-, rfl⟩ := hr.unique hb (List.mem_append_right _ List.mem_cons_self)
  have hgpost : .got h' r' k' v' false ∈ cycle (pre ++ .began h' kind r' :: post) := by
    rw [hcycle]
    refine List.mem_append_right _ ((List.mem_append.1 hg).resolve_left fun hg => ?_)
    obtain ⟨kind', hb⟩ := hm.got hg
    exact absurd (hm.lt hb) (hname ▸ lt_irrefl _)
  rcases hr.readsAt hgpost with ⟨b, hb, hv⟩ | ⟨hnone, -⟩
  · exact ⟨b, hb, hv, hb.max a ha hak (hsucc.commitTs ▸ hle)⟩
  · exact absurd (hnone a ha hak) (not_lt.2 (hsucc.commitTs ▸ hle))

/-! ## A commit overtaken

Two transactions, of which the one with the higher timestamp returns while the
other is in flight. A snapshot begins then, and another one once both have returned. -/

def overtakenRun : List Action :=
  [.begin .transaction, .begin .transaction, .put 0 [120] [1], .put 1 [121] [1],
    .commit 0 [⟨[120], some [1]⟩] [], .commit 1 [⟨[121], some [1]⟩] [], .tryCommit 1,
    .commitDone 1, .drop 1, .begin .snapshot, .get 2 [121], .tryCommit 0, .commitDone 0, .drop 0,
    .begin .snapshot, .get 3 [121]]

def overtakenTrace : List Event :=
  [.began 0 .transaction 0, .began 1 .transaction 0, .wrote 0 [120] (some [1]),
    .wrote 1 [121] (some [1]), .allocated ⟨0, 0, 1, [⟨[120], some [1]⟩], []⟩,
    .allocated ⟨1, 0, 2, [⟨[121], some [1]⟩], []⟩,
    .committed ⟨1, 0, 2, [⟨[121], some [1]⟩], []⟩, .reported ⟨1, 0, 2, [⟨[121], some [1]⟩], []⟩,
    .returned 1 (.ok 2), .began 2 .snapshot 0, .got 2 0 [121] none false,
    .committed ⟨0, 0, 1, [⟨[120], some [1]⟩], []⟩, .reported ⟨0, 0, 1, [⟨[120], some [1]⟩], []⟩,
    .returned 0 (.ok 1), .began 3 .snapshot 2, .got 3 2 [121] (some [1]) false]

theorem exec_overtakenRun : (Trace.exec Sys.step .new overtakenRun).map
    (Prod.map id fun _ => ()) = some (overtakenTrace, ()) := by
  decide +kernel

/-- The second snapshot sees the commit. -/
theorem visible_iff_settled_overtaken :
    SeesReturned overtakenTrace (overtakenTrace.take 14) 1 2 3 2 := by
  obtain ⟨s, hrun, -⟩ := run_of_exec exec_overtakenRun
  have htr : overtakenTrace = overtakenTrace.take 14 ++ .began 3 .snapshot 2 ::
      [.got 3 2 [121] (some [1]) false] := rfl
  have hw : .wrote 1 [121] (some [1]) ∈ overtakenTrace.take 14 := by decide
  refine (visible_iff_settled (.inl rfl) hrun (by decide) (fun ⟨L, hL⟩ => ?_) htr (by simp)
    (by decide) hw).2 fun a ha hlt => ?_
  · simp [overtakenTrace] at hL
  · have hcycle : cycle (overtakenTrace.take 14) = overtakenTrace.take 14 := rfl
    rw [hcycle] at ha ⊢
    simp only [overtakenTrace, List.take_succ_cons, List.take_zero, List.mem_cons,
      List.not_mem_nil, Event.allocated.injEq, reduceCtorEq, false_or, or_false] at ha
    rcases ha with rfl | rfl
    · decide
    · exact absurd hlt (lt_irrefl _)

/-- The first snapshot reads below the commit, that has returned, and does not see it. -/
theorem overtaken : ∃ s, Run .new overtakenTrace s ∧ allocations overtakenTrace < 2 ^ 64 ∧
    ∃ post, overtakenTrace = overtakenTrace.take 9 ++ .began 2 .snapshot 0 :: post ∧
      .returned 1 (.ok 2) ∈ overtakenTrace.take 9 ∧
      .wrote 1 [121] (some [1]) ∈ overtakenTrace.take 9 ∧
      .got 2 0 [121] none false ∈ post ∧
      ¬SeesReturned overtakenTrace (overtakenTrace.take 9) 1 2 2 0 := by
  obtain ⟨s, hrun, -⟩ := run_of_exec exec_overtakenRun
  refine ⟨s, hrun, by decide, overtakenTrace.drop 10, rfl, by decide, by decide, by decide, ?_⟩
  rintro ⟨_, _, _, _, _, hle, _⟩
  exact absurd hle (by decide)

end TxnDb
