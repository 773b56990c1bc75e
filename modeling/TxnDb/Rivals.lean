import TxnDb.Failures
import TxnDb.Visibility

/-!
# Who is in the way of a commit

A commit is rejected for what happened during its transaction, and for nothing else
(`rejected_iff_overlapped`): since the transaction began, another one has committed that wrote a
key it touches; or that one had committed before, while some attempt that has its own timestamp or
a lower one was not reported when the transaction began.
-/

namespace TxnDb

open Mvcc

variable {tr tr' pre mid post : List Event} {s₀ s m m' : Sys} {e : Event} {a b : Attempt}
  {h r c : ℕ} {k : Key} {kind : Kind} {err : TxnError}

/-- Some attempt that took the timestamp `c` or a lower one is not reported. -/
def Underway (tr : List Event) (c : ℕ) : Prop :=
  ∃ x, .allocated x ∈ cycle tr ∧ .reported x ∉ cycle tr ∧ x.commitTs ≤ c

/-- The transaction `b` overlaps one that began after the events `pre` and tries to commit after
    the events `mid` that follow: it commits among these, or else it has committed before, while
    an attempt at its timestamp or below was underway. -/
def Overlaps (pre mid : List Event) (b : Attempt) : Prop :=
  .committed b ∈ mid ∨ (b ∈ history pre ∧ Underway pre b.commitTs)

/-- The timestamps up to `c` are covered by the watermark unless an attempt is underway at one
    of them. -/
theorem Outcomes.lt_iff_underway (ho : Outcomes tr s) (hinv : Inv tr s) (hc : c ≤ issued tr) :
    s.inner.readTs < c ↔ Underway tr c := by
  have hiff := hinv.tracks.le_readTs_iff hc
  rw [← not_le]
  refine (not_congr hiff).trans ?_
  simp only [not_forall, not_not]
  constructor
  · rintro ⟨t, ht, i, hi⟩
    obtain ⟨x, stage, hh, rfl⟩ := Sys.exists_committing hi
    refine ⟨x, ho.allocated hh, fun hrep => ?_, ht⟩
    have hd := (ho.reported hrep).2
    rw [(hinv.attempts hh).id, hh] at hd
    exact hd
  · rintro ⟨x, hx, hrep, hle⟩
    obtain ⟨stage, hh⟩ := (ho.held hx).resolve_right hrep
    exact ⟨x.commitTs, hle, x.id, congrArg Handle.commitTs hh⟩

/-- As long as the database is not opened again, the history is what was there, and what was
    committed since. -/
theorem mem_history_append (hno : ∀ L, .opened L ∉ tr') :
    b ∈ history (tr ++ tr') ↔ b ∈ history tr ∨ .committed b ∈ tr' := by
  induction tr' using List.reverseRecOn with
  | nil => simp
  | append_singleton tr' e ih =>
    have ih := ih fun L hL => hno L (List.mem_append_left _ hL)
    rw [← List.append_assoc, history_append_singleton, List.mem_append, List.mem_singleton]
    cases e with
    | committed x => simp [Event.extend, ih, or_assoc]
    | opened L => exact absurd (by simp) (hno L)
    | _ => simp [Event.extend, ih]

/-- The name of a handle is not given again. -/
theorem not_began_again {kind' : Kind} {r' : ℕ} (h₀ : s₀.Fresh)
    (hrun : Run s₀ (pre ++ .began h kind r :: mid) s)
    (hlt : allocations (pre ++ .began h kind r :: mid) < 2 ^ 64)
    (hfit : Recoverable (pre ++ .began h kind r :: mid)) : .began h kind' r' ∉ mid := by
  intro hb
  obtain ⟨mid₁, mid₂, rfl⟩ := List.append_of_mem hb
  rw [← List.cons_append, ← List.append_assoc] at hrun hlt hfit
  obtain ⟨m, m', hpre, ⟨act, hact⟩, -⟩ := Trace.Run.cut hrun
  have hm := reached_of_run h₀ hpre (allocations_lt_of_append hlt) hfit.of_append
  have hname : h = m.handles.length := by
    cases step_inv hact
    rfl
  exact absurd (hm.lt (List.mem_append_right _ List.mem_cons_self)) (hname ▸ lt_irrefl _)

/-- While a handle is not dropped, the database is not opened again. -/
theorem not_opened (h₀ : s₀.Fresh) (hrun : Run s₀ (pre ++ .began h kind r :: mid) s)
    (hlt : allocations (pre ++ .began h kind r :: mid) < 2 ^ 64)
    (hfit : Recoverable (pre ++ .began h kind r :: mid)) (hh : (s.handle h).readTs = some c)
    (L : List Attempt) : .opened L ∉ mid := by
  intro hL
  have hr := reached_of_run h₀ hrun hlt hfit
  obtain ⟨kind', hb⟩ := hr.began hh
  obtain ⟨mid₁, mid₂, rfl⟩ := List.append_of_mem hL
  rw [← List.cons_append, ← List.append_assoc] at hb
  exact not_began_again h₀ hrun hlt hfit
    (List.mem_append_right _ (List.mem_cons_of_mem _ (mem_of_mem_cycle_append_opened hb)))

/-- What has committed above the timestamp that a transaction began at overlaps it. -/
theorem overlaps_iff (h₀ : s₀.Fresh) (hrun : Run s₀ (pre ++ .began h kind r :: mid) s)
    (hlt : allocations (pre ++ .began h kind r :: mid) < 2 ^ 64)
    (hfit : Recoverable (pre ++ .began h kind r :: mid)) (hno : ∀ L, .opened L ∉ mid) :
    b ∈ history (pre ++ .began h kind r :: mid) ∧ r < b.commitTs ↔ Overlaps pre mid b := by
  obtain ⟨m, m', hpre, ⟨act, hact⟩, -⟩ := Trace.Run.cut hrun
  have hltpre : allocations pre < 2 ^ 64 := allocations_lt_of_append hlt
  have hm := reached_of_run h₀ hpre hltpre hfit.of_append
  have ho := outcomes_of_run h₀ hpre hltpre hfit.of_append
  have hread : r = m.inner.readTs := by
    cases step_inv hact
    rfl
  have hhead : ∀ {mid'}, mid' ⊆ mid → ∀ L, .opened L ∉ .began h kind r :: mid' :=
    fun hsub L hL => (List.mem_cons.1 hL).elim nofun fun hL => hno L (hsub hL)
  have hbefore : b ∈ history pre → (r < b.commitTs ↔ Underway pre b.commitTs) := fun hb =>
    hread ▸ ho.lt_iff_underway hm.toInv (hm.commit_le b hb)
  have hsince : .committed b ∈ mid → r < b.commitTs := fun hb => by
    obtain ⟨mid₁, mid₂, rfl⟩ := List.append_of_mem hb
    rw [← List.cons_append, ← List.append_assoc] at hrun hlt hfit
    obtain ⟨m, m', hpre, ⟨act, hact⟩, -⟩ := Trace.Run.cut hrun
    have hm := reached_of_run h₀ hpre (allocations_lt_of_append hlt) hfit.of_append
    refine @Reached.lt_commitTs _ _ h r b _ kind hm ?_ (step_inv hact)
    rw [cycle_append (hhead (List.subset_append_left _ _))]
    exact List.mem_append_right _ List.mem_cons_self
  rw [mem_history_append (hhead (List.Subset.refl _)), Overlaps]
  simp only [List.mem_cons, reduceCtorEq, false_or]
  constructor
  · rintro ⟨hb | hb, hlt⟩
    · exact .inr ⟨hb, (hbefore hb).1 hlt⟩
    · exact .inl hb
  · rintro (hb | ⟨hb, hunder⟩)
    · exact ⟨.inr hb, hsince hb⟩
    · exact ⟨.inl hb, (hbefore hb).2 hunder⟩

/-- In every run, a transaction that tries to commit is rejected iff one that wrote a key it
    touches overlaps it. -/
theorem rejected_iff_overlapped (h₀ : s₀.Fresh) (hrun : Run s₀ tr s)
    (hlt : allocations tr < 2 ^ 64) (hfit : Recoverable tr)
    (htr : tr = pre ++ .began a.id kind r :: (mid ++ e :: post))
    (he : e = .committed a ∨ e = .conflicted a err) :
    e = .conflicted a err ↔ ∃ b k, b.Writes k ∧ a.Touches k ∧ Overlaps pre mid b := by
  rw [← List.cons_append, ← List.append_assoc] at htr
  subst htr
  obtain ⟨m, m', hpre, ⟨act, hact⟩, -⟩ := Trace.Run.cut hrun
  have hlt : allocations (pre ++ .began a.id kind r :: mid) < 2 ^ 64 := allocations_lt_of_append hlt
  have hfit := hfit.of_append
  have hm := reached_of_run h₀ hpre hlt hfit
  have hstep := step_inv hact
  have hh : m.handle a.id = .committing a .allocated := by
    rcases he with rfl | rfl
    · cases hstep with
      | committed hh => rwa [(hm.attempts hh).id]
    · cases hstep with
      | conflicted hh => rwa [(hm.attempts hh).id]
  obtain rfl : a.readTs = r := by
    obtain ⟨kind', hb⟩ := hm.began (congrArg Handle.readTs hh)
    exact (hm.unique (mem_of_mem_cycle hb) (List.mem_append_right _ List.mem_cons_self)).2
  have hno := not_opened h₀ hpre hlt hfit (congrArg Handle.readTs hh)
  have hiff : ∀ {b}, _ ↔ Overlaps pre mid b := overlaps_iff h₀ hpre hlt hfit hno
  constructor
  · rintro rfl
    obtain ⟨b, hb, hlt, k, hbk, hak⟩ := hm.conflictsWith_of_conflicted hstep
    exact ⟨b, k, hbk, hak, hiff.1 ⟨hb, hlt⟩⟩
  · rintro ⟨b, k, hbk, hak, hover⟩
    refine he.resolve_left fun hcommitted => ?_
    subst hcommitted
    obtain ⟨hb, hlt⟩ := hiff.2 hover
    exact hm.not_conflictsWith_of_committed hstep hb ⟨hlt, k, hbk, hak⟩

/-! A transaction begins after another one that wrote the same key has returned, and is rejected:
a third one is underway below. -/

def latecomer : Attempt := ⟨2, 0, 3, [⟨[121], some [2]⟩], []⟩

def latecomerRun : List Action :=
  [.begin .transaction, .begin .transaction, .put 0 [120] [1], .put 1 [121] [1],
    .commit 0 [⟨[120], some [1]⟩] [], .commit 1 [⟨[121], some [1]⟩] [], .tryCommit 1,
    .commitDone 1, .drop 1, .begin .transaction, .put 2 [121] [2], .commit 2 latecomer.writes [],
    .tryCommit 2]

def earlierTrace : List Event :=
  [.began 0 .transaction 0, .began 1 .transaction 0, .wrote 0 [120] (some [1]),
    .wrote 1 [121] (some [1]), .allocated ⟨0, 0, 1, [⟨[120], some [1]⟩], []⟩,
    .allocated ⟨1, 0, 2, [⟨[121], some [1]⟩], []⟩,
    .committed ⟨1, 0, 2, [⟨[121], some [1]⟩], []⟩, .reported ⟨1, 0, 2, [⟨[121], some [1]⟩], []⟩,
    .returned 1 (.ok 2)]

def latecomerTrace : List Event :=
  earlierTrace ++ .began 2 .transaction 0 :: ([.wrote 2 [121] (some [2]), .allocated latecomer] ++
    .conflicted latecomer (.conflict 1) :: [])

theorem exec_latecomerRun : (Trace.exec Sys.step .new latecomerRun).map
    (Prod.map id fun _ => ()) = some (latecomerTrace, ()) := by
  decide +kernel

theorem rejected_iff_overlapped_latecomer : ∃ s, Run .new latecomerTrace s ∧
    ∃ b k, b.Writes k ∧ latecomer.Touches k ∧
      Overlaps earlierTrace [.wrote 2 [121] (some [2]), .allocated latecomer] b := by
  obtain ⟨s, hrun, -⟩ := run_of_exec exec_latecomerRun
  refine ⟨s, hrun, (rejected_iff_overlapped (.inl rfl) hrun (by decide) (fun ⟨L, hL⟩ => ?_) rfl
    (.inr rfl)).1 rfl⟩
  exact absurd hL ((log_eq_none_of_run hrun).2 L)

end TxnDb
