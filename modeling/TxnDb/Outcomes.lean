import TxnDb.Reached

/-!
# Outcomes

What becomes of an attempt to commit, from the timestamp it takes to the result
it returns (`Outcomes`): its timestamp is held until it is reported as done; its
result is a success only if it was committed and, in a durable database, its
record appended; and it is returned after its timestamp was reported.

A transaction that was rolled back, or rejected, is not committed (`Verdicts`).

A transaction at or below the watermark is in the log, unless its append has
failed (`Reached.logged_of_le`).
-/

namespace TxnDb

open Mvcc

variable {tr : List Event} {s₀ s s' : Sys} {h r c : ℕ} {e : Event} {a b : Attempt} {k : Key}
  {v : Option Value} {log : CommitLog} {stage : Stage}

/-! ## Steps -/

/-- How an attempt came to the stage it is at. -/
theorem Step.committing_inv (hstep : Step s e s') (hh : s'.handle h = .committing a stage) :
    s.handle h = .committing a stage ∨
      (e = .allocated a ∧ stage = .allocated) ∨
      (e = .committed a ∧
        stage = if s.inner.log.isSome then .applied else .decided (.ok a.commitTs)) ∨
      (∃ x, e = .conflicted a x ∧ stage = .decided (.error x)) ∨
      (e = .appending a ∧ stage = .appending ∧ s.handle h = .committing a .applied) ∨
      (e = .appended a none ∧ stage = .decided (.ok a.commitTs) ∧
        s.handle h = .committing a .appending) ∨
      ∃ detail, e = .appended a (some detail) ∧ stage = .decided (.error (.durability detail)) ∧
        s.handle h = .committing a .appending := by
  cases hstep with
  | began kind =>
    rw [Sys.handle_add] at hh
    split_ifs at hh
    · cases kind <;> cases hh
    · exact .inl hh
  | gotSnapshot | swept | pruned => exact .inl hh
  | gotStore hh' | gotOwn hh' | wrote hh' | readOnly hh' | reported hh' | returned hh'
  | droppedSnapshot hh' | droppedTransaction hh' =>
    rcases Sys.handle_set_cases (Sys.ne_closed hh' rfl) hh with hh | ⟨-, hx⟩
    · exact .inl hh
    · cases hx
  | allocated hh' =>
    refine (Sys.handle_set_cases (Sys.ne_closed hh' rfl) hh).imp_right fun ⟨_, hx⟩ => .inl ?_
    obtain ⟨rfl, rfl⟩ := Handle.committing.inj hx
    exact ⟨rfl, rfl⟩
  | committed hh' hok hstage =>
    refine (Sys.handle_set_cases (Sys.ne_closed hh' rfl) hh).imp_right
      fun ⟨_, hx⟩ => .inr (.inl ?_)
    obtain ⟨rfl, rfl⟩ := Handle.committing.inj hx
    exact ⟨rfl, hstage⟩
  | conflicted hh' =>
    refine (Sys.handle_set_cases (Sys.ne_closed hh' rfl) hh).imp_right
      fun ⟨_, hx⟩ => .inr (.inr (.inl ?_))
    obtain ⟨rfl, rfl⟩ := Handle.committing.inj hx
    exact ⟨_, rfl, rfl⟩
  | appending hh' =>
    refine (Sys.handle_set_cases (Sys.ne_closed hh' rfl) hh).imp_right
      fun ⟨heq, hx⟩ => .inr (.inr (.inr (.inl ?_)))
    obtain ⟨rfl, rfl⟩ := Handle.committing.inj hx
    exact ⟨rfl, rfl, heq.symm ▸ hh'⟩
  | appended hh' =>
    refine (Sys.handle_set_cases (Sys.ne_closed hh' rfl) hh).imp_right
      fun ⟨heq, hx⟩ => .inr (.inr (.inr (.inr (.inl ?_))))
    obtain ⟨rfl, rfl⟩ := Handle.committing.inj hx
    exact ⟨rfl, rfl, heq.symm ▸ hh'⟩
  | appendFailed hh' =>
    refine (Sys.handle_set_cases (Sys.ne_closed hh' rfl) hh).imp_right
      fun ⟨heq, hx⟩ => .inr (.inr (.inr (.inr (.inr ?_))))
    obtain ⟨rfl, rfl⟩ := Handle.committing.inj hx
    exact ⟨_, rfl, rfl, heq.symm ▸ hh'⟩
  | opened =>
    rw [Sys.handle_map_closed] at hh
    cases hh

/-- An attempt stays in a commit until its timestamp is reported. -/
theorem Step.committing_next (hstep : Step s e s') (hh : s.handle h = .committing a stage)
    (hopen : ∀ L, e ≠ .opened L) : (∃ stage', s'.handle h = .committing a stage') ∨
      e = .reported a := by
  have hset : ∀ {h' x inner}, s.handle h' ≠ .closed →
      ((∃ stage', s.handle h' = .committing a stage') → ∃ stage', x = .committing a stage') →
      ∃ stage', (s.set h' x inner).handle h = .committing a stage' := fun hc hx =>
    Sys.handle_set_keeps (fun y => ∃ stage', y = .committing a stage') hc ⟨stage, hh⟩ hx
  cases hstep with
  | began =>
    have hlt := Sys.lt_of_handle (s := s) (h := h) (Sys.ne_closed hh rfl)
    rw [Sys.handle_add, if_neg hlt.ne]
    exact .inl ⟨stage, hh⟩
  | gotSnapshot | swept | pruned => exact .inl ⟨stage, hh⟩
  | gotStore hh' | gotOwn hh' | wrote hh' | readOnly hh' | allocated hh' | returned hh'
  | droppedSnapshot hh' | droppedTransaction hh' =>
    refine .inl (hset (Sys.ne_closed hh' rfl) fun ⟨stage', hy⟩ => ?_)
    rw [hh'] at hy
    cases hy
  | committed hh' | conflicted hh' | appending hh' | appended hh' | appendFailed hh' =>
    refine .inl (hset (Sys.ne_closed hh' rfl) fun ⟨stage', hy⟩ => ?_)
    rw [hh'] at hy
    obtain ⟨rfl, -⟩ := Handle.committing.inj hy
    exact ⟨_, rfl⟩
  | @reported h' _ _ hh' =>
    by_cases heq : h = h'
    · rw [← heq, hh] at hh'
      obtain ⟨rfl, -⟩ := Handle.committing.inj hh'
      exact .inr rfl
    · exact .inl ⟨stage, by rw [Sys.handle_set_of_ne heq, hh]⟩
  | opened => exact absurd rfl (hopen _)

/-- How a commit came to its result. -/
theorem Step.finished_inv (hstep : Step s e s') {result : Except TxnError ℕ}
    (hh : s'.handle h = .finished r result) :
    s.handle h = .finished r result ∨ (e = .readOnly h r ∧ result = .ok r) ∨
      ∃ a, e = .reported a ∧ s.handle h = .committing a (.decided result) := by
  cases hstep with
  | began kind =>
    rw [Sys.handle_add] at hh
    split_ifs at hh
    · cases kind <;> cases hh
    · exact .inl hh
  | gotSnapshot | swept | pruned => exact .inl hh
  | gotStore hh' | gotOwn hh' | wrote hh' | allocated hh' | returned hh' | droppedSnapshot hh'
  | droppedTransaction hh' | committed hh' | conflicted hh' | appending hh' | appended hh'
  | appendFailed hh' =>
    rcases Sys.handle_set_cases (Sys.ne_closed hh' rfl) hh with hh | ⟨-, hx⟩
    · exact .inl hh
    · cases hx
  | readOnly hh' =>
    refine (Sys.handle_set_cases (Sys.ne_closed hh' rfl) hh).imp_right fun ⟨heq, hx⟩ => .inl ?_
    obtain ⟨rfl, rfl⟩ := Handle.finished.inj hx
    exact ⟨heq.symm ▸ rfl, rfl⟩
  | reported hh' =>
    refine (Sys.handle_set_cases (Sys.ne_closed hh' rfl) hh).imp_right fun ⟨heq, hx⟩ => .inr ?_
    obtain ⟨-, rfl⟩ := Handle.finished.inj hx
    exact ⟨_, rfl, heq.symm ▸ hh'⟩
  | opened =>
    rw [Sys.handle_map_closed] at hh
    cases hh

/-! ## Commits -/

/-- The commit of `h` succeeded at `c`: it was committed, its record appended if the
    database is durable, and its timestamp reported. -/
structure Succeeded (tr : List Event) (durable : Bool) (h c : ℕ) (a : Attempt) : Prop where
  id : a.id = h
  commitTs : a.commitTs = c
  committed : .committed a ∈ tr
  appended : durable → .appended a none ∈ tr
  reported : .reported a ∈ tr

/-- What has become of the attempts since the database was opened. -/
structure Outcomes (tr : List Event) (s : Sys) : Prop where
  allocated : ∀ {h a stage}, s.handle h = .committing a stage → .allocated a ∈ cycle tr
  /-- A timestamp handed out is held until it is reported. -/
  held : ∀ {a}, .allocated a ∈ cycle tr →
    (∃ stage, s.handle a.id = .committing a stage) ∨ .reported a ∈ cycle tr
  reported : ∀ {a}, .reported a ∈ cycle tr → a.id < s.handles.length ∧ (s.handle a.id).Done
  applied : ∀ {h a stage}, s.handle h = .committing a stage → stage.Applied →
    .committed a ∈ cycle tr
  /-- A commit succeeds at its timestamp, once its record is appended. -/
  decided : ∀ {h a c}, s.handle h = .committing a (.decided (.ok c)) →
    c = a.commitTs ∧ (s.inner.log.isSome → .appended a none ∈ cycle tr)
  finished : ∀ {h r c}, s.handle h = .finished r (.ok c) →
    .readOnly h c ∈ cycle tr ∨ ∃ a, Succeeded (cycle tr) s.inner.log.isSome h c a
  returned : ∀ {h c}, .returned h (.ok c) ∈ cycle tr →
    .readOnly h c ∈ cycle tr ∨ ∃ a, Succeeded (cycle tr) s.inner.log.isSome h c a

theorem Succeeded.mono {tr tr' : List Event} {durable : Bool} (h' : Succeeded tr durable h c a)
    (hsub : tr ⊆ tr') : Succeeded tr' durable h c a :=
  ⟨h'.id, h'.commitTs, hsub h'.committed, fun hd => hsub (h'.appended hd), hsub h'.reported⟩

theorem outcomes_of_closed (hclosed : ∀ h, s.handle h = .closed) (hnil : cycle tr = []) :
    Outcomes tr s := by
  refine ⟨fun hh => ?_, fun hh => ?_, fun hh => ?_, fun hh => ?_, fun hh => ?_, fun hh => ?_,
    fun hh => ?_⟩
  all_goals first
    | (rw [hclosed] at hh; cases hh)
    | (rw [hnil] at hh; exact absurd hh List.not_mem_nil)

namespace Outcomes

/-- What an attempt has applied, it has committed. -/
theorem applied_step (ho : Outcomes tr s) (hstep : Step s e s')
    (hcycle : cycle (tr ++ [e]) = cycle tr ++ [e]) (hh : s'.handle h = .committing a stage)
    (hst : stage.Applied) : .committed a ∈ cycle (tr ++ [e]) := by
  rw [hcycle]
  rcases hstep.committing_inv hh with hh | ⟨-, rfl⟩ | ⟨rfl, -⟩ | ⟨x, rfl, rfl⟩ |
    ⟨-, rfl, hh'⟩ | ⟨-, rfl, hh'⟩ | ⟨detail, -, rfl, hh'⟩
  · exact List.mem_append_left _ (ho.applied hh hst)
  · exact hst.elim
  · exact List.mem_append_right _ (List.mem_singleton_self _)
  · -- a commit is rejected with a conflict, which applies nothing
    cases hstep with
    | conflicted hh' herr =>
      rcases MemoryStore.tryCommit_commits s.inner.store a.readTs a.commitTs a.writes a.reads with
        ⟨_, _, heq⟩ | ⟨_, _, heq, _⟩ <;> rw [herr] at heq <;> cases heq
      exact hst.elim
  all_goals exact List.mem_append_left _ (ho.applied hh' trivial)

/-- What an attempt succeeds with is its timestamp, and its record was appended. -/
theorem decided_step (ho : Outcomes tr s) (hstep : Step s e s')
    (hcycle : cycle (tr ++ [e]) = cycle tr ++ [e])
    (hh : s'.handle h = .committing a (.decided (.ok c))) :
    c = a.commitTs ∧ (s'.inner.log.isSome → .appended a none ∈ cycle (tr ++ [e])) := by
  rw [hstep.isSome_log, hcycle]
  rcases hstep.committing_inv hh with hh | ⟨-, hst⟩ | ⟨-, hst⟩ | ⟨x, -, hst⟩ | ⟨-, hst, -⟩ |
    ⟨rfl, hst, -⟩ | ⟨detail, -, hst, -⟩
  · exact ⟨(ho.decided hh).1, fun hd => List.mem_append_left _ ((ho.decided hh).2 hd)⟩
  · cases hst
  · -- there is no log
    split_ifs at hst with hd
    obtain rfl := Except.ok.inj (Stage.decided.inj hst)
    exact ⟨rfl, fun hd' => absurd hd' hd⟩
  · cases hst
  · cases hst
  · obtain rfl := Except.ok.inj (Stage.decided.inj hst)
    exact ⟨rfl, fun _ => List.mem_append_right _ (List.mem_singleton_self _)⟩
  · cases hst

/-- A commit finishes with success once it is reported, or if it had nothing to write. -/
theorem finished_step (ho : Outcomes tr s) (hinv : Inv tr s) (hstep : Step s e s')
    (hcycle : cycle (tr ++ [e]) = cycle tr ++ [e]) (hh : s'.handle h = .finished r (.ok c)) :
    .readOnly h c ∈ cycle (tr ++ [e]) ∨
      ∃ a, Succeeded (cycle (tr ++ [e])) s'.inner.log.isSome h c a := by
  have hold : cycle tr ⊆ cycle tr ++ [e] := List.subset_append_left _ _
  have hnew : e ∈ cycle tr ++ [e] := List.mem_append_right _ (List.mem_singleton_self e)
  rw [hstep.isSome_log, hcycle]
  rcases hstep.finished_inv hh with hh | ⟨rfl, hc⟩ | ⟨a, rfl, hh⟩
  · exact (ho.finished hh).imp (@hold _) fun ⟨a, ha⟩ => ⟨a, ha.mono hold⟩
  · obtain rfl := Except.ok.inj hc
    exact .inl hnew
  · obtain ⟨rfl, happ⟩ := ho.decided hh
    exact .inr ⟨a, (hinv.attempts hh).id, rfl, hold (ho.applied hh trivial),
      fun hd => hold (happ hd), hnew⟩

/-- What has become of the attempts, a step later. -/
theorem step (ho : Outcomes tr s) (hinv : Inv tr s) (hstep : Step s e s') :
    Outcomes (tr ++ [e]) s' := by
  by_cases hopen : ∃ L, e = .opened L
  · -- opening the database starts over
    obtain ⟨L, rfl⟩ := hopen
    cases hstep with
    | opened => exact outcomes_of_closed (Sys.handle_map_closed _ _) cycle_append_opened
  have hopen := not_exists.1 hopen
  have hcycle : cycle (tr ++ [e]) = cycle tr ++ [e] := cycle_append_of_ne hopen
  have hold : cycle tr ⊆ cycle (tr ++ [e]) := hcycle ▸ List.subset_append_left _ _
  have hnew : e ∈ cycle (tr ++ [e]) := by rw [hcycle]; simp
  have hmem : ∀ {e'}, e' ∈ cycle (tr ++ [e]) → e' ∈ cycle tr ∨ e' = e := fun he => by
    rw [hcycle] at he
    exact (List.mem_append.1 he).imp_right List.mem_singleton.1
  refine ⟨fun {h a stage} hh => ?_, fun {a} ha => ?_, fun {a} ha => ?_,
    ho.applied_step hstep hcycle, ho.decided_step hstep hcycle,
    ho.finished_step hinv hstep hcycle, fun {h c} hret => ?_⟩
  · rcases hstep.committing_inv hh with hh | ⟨rfl, -⟩ | ⟨rfl, -⟩ | ⟨x, rfl, -⟩ | ⟨-, -, hh⟩ |
      ⟨-, -, hh⟩ | ⟨detail, -, -, hh⟩
    · exact hold (ho.allocated hh)
    · exact hnew
    · cases hstep with
      | committed hh' => exact hold (ho.allocated hh')
    · cases hstep with
      | conflicted hh' => exact hold (ho.allocated hh')
    all_goals exact hold (ho.allocated hh)
  · rcases hmem ha with ha | rfl
    · rcases ho.held ha with ⟨stage, hh⟩ | hrep
      · refine (hstep.committing_next hh hopen).imp_right ?_
        rintro rfl
        exact hnew
      · exact .inr (hold hrep)
    · cases hstep with
      | allocated hh hid =>
        rw [hid, Sys.handle_set_self (Sys.ne_closed hh rfl)]
        exact .inl ⟨_, rfl⟩
  · rcases hmem ha with ha | rfl
    · obtain ⟨hlt, hd⟩ := ho.reported ha
      exact ⟨hlt.trans_le hstep.length_le, hstep.done hd hlt⟩
    · cases hstep with
      | @reported h _ _ hh =>
        have hclosed : s.handle h ≠ .closed := Sys.ne_closed hh rfl
        rw [(hinv.attempts hh).id, Sys.handle_set_self hclosed, Sys.length_handles_set]
        exact ⟨Sys.lt_of_handle hclosed, trivial⟩
  · rcases hmem hret with hret | rfl
    · rw [hstep.isSome_log]
      exact (ho.returned hret).imp (@hold _) fun ⟨a, ha⟩ => ⟨a, ha.mono hold⟩
    · cases hstep with
      | returned hh => exact (ho.finished hh).imp (@hold _) fun ⟨a, ha⟩ => ⟨a, ha.mono hold⟩

end Outcomes

/-- What has become of the attempts, in every run. -/
theorem outcomes_of_run (h₀ : s₀.Fresh) (hrun : Run s₀ tr s) (hlt : allocations tr < 2 ^ 64)
    (hfit : Recoverable tr) : Outcomes tr s := by
  refine (reached_nil h₀).invariant hrun hlt hfit (outcomes_of_closed (fun h => ?_) rfl)
    fun hr _ ho hstep => ho.step hr.toInv hstep
  rcases h₀ with rfl | rfl <;> rfl

/-- A transaction that writes has something to commit. -/
theorem Reached.not_readOnly (hr : Reached tr s) (hw : .wrote h k v ∈ tr) :
    .readOnly h r ∉ tr := by
  intro hro
  have hmem : .write k v ∈ session tr h := List.mem_filterMap.2 ⟨_, hw, if_pos rfl⟩
  exact buffered_ne_none_of_mem hmem (hr.writesNothing hro k)

/-! ## Verdicts -/

/-- A handle that has no commit to try. -/
def Handle.Tried : Handle → Prop
  | .reading _ | .active _ | .committing _ .allocated => False
  | .committing _ _ | .finished _ _ | .closed => True

theorem Step.tried (hstep : Step s e s') (ht : (s.handle h).Tried) (hlt : h < s.handles.length) :
    (s'.handle h).Tried := by
  cases hstep with
  | began => rwa [Sys.handle_add, if_neg hlt.ne]
  | gotSnapshot | swept | pruned => exact ht
  | gotStore hh | gotOwn hh | wrote hh | readOnly hh | allocated hh | returned hh
  | droppedSnapshot hh | droppedTransaction hh | reported hh | committed hh | conflicted hh
  | appending hh | appended hh | appendFailed hh =>
    exact Sys.handle_set_keeps Handle.Tried (Sys.ne_closed hh rfl) ht fun ht => by
      rw [hh] at ht
      first | exact ht.elim | trivial
  | opened => rw [Sys.handle_map_closed]; trivial

/-- The transaction was rolled back, or its commit was rejected. -/
def Rejected (tr : List Event) (h : ℕ) : Prop :=
  .dropped h ∈ tr ∨ ∃ a x, a.id = h ∧ .conflicted a x ∈ tr

/-- The transactions that were committed, and those that were not. -/
structure Verdicts (tr : List Event) (s : Sys) : Prop where
  tried : ∀ {a}, .committed a ∈ tr → (s.handle a.id).Tried
  rejected : ∀ {h}, Rejected tr h →
    h < s.handles.length ∧ (s.handle h).Tried ∧ ∀ a, .committed a ∈ tr → a.id ≠ h

theorem Verdicts.step (hv : Verdicts tr s) (hn : Named tr s) (hinv : Inv tr s)
    (hstep : Step s e s') : Verdicts (tr ++ [e]) s' := by
  refine ⟨fun {a} hc => ?_, fun {h} hrej => ?_⟩
  · rcases List.mem_append.1 hc with hc | hc
    · exact hstep.tried (hv.tried hc) (hn.committed hc).2.1
    · obtain rfl := List.mem_singleton.1 hc
      cases hstep with
      | committed hh hok hstage =>
        rw [(hinv.attempts hh).id, Sys.handle_set_self (Sys.ne_closed hh rfl), hstage]
        -- in memory, or with a record to append
        split_ifs <;> trivial
  · -- a handle with nothing to try was rejected before, or is now
    have hcases : (Rejected tr h ∧ (s.handle h).Tried) ∨ (¬(s.handle h).Tried ∧
        h < s.handles.length ∧ (s'.handle h).Tried ∧ ∀ a, e ≠ .committed a) := by
      rcases hrej with hd | ⟨b, x, rfl, hb⟩
      · rcases List.mem_append.1 hd with hd | hd
        · exact .inl ⟨.inl hd, (hv.rejected (.inl hd)).2.1⟩
        · obtain rfl := List.mem_singleton.1 hd
          cases hstep with
          | droppedSnapshot hh | droppedTransaction hh =>
            have hclosed : s.handle h ≠ .closed := Sys.ne_closed hh rfl
            refine .inr ⟨by rw [hh]; exact id, Sys.lt_of_handle hclosed, ?_, nofun⟩
            rw [Sys.handle_set_self hclosed]
            trivial
      · rcases List.mem_append.1 hb with hb | hb
        · exact .inl ⟨.inr ⟨b, x, rfl, hb⟩, (hv.rejected (.inr ⟨b, x, rfl, hb⟩)).2.1⟩
        · obtain rfl := List.mem_singleton.1 hb
          cases hstep with
          | @conflicted h _ _ hh =>
            have hclosed : s.handle h ≠ .closed := Sys.ne_closed hh rfl
            rw [(hinv.attempts hh).id]
            refine .inr ⟨by rw [hh]; exact id, Sys.lt_of_handle hclosed, ?_, nofun⟩
            rw [Sys.handle_set_self hclosed]
            trivial
    rcases hcases with ⟨hrej, ht⟩ | ⟨ht, hlt, ht', hne⟩
    · obtain ⟨hlt, -, hnot⟩ := hv.rejected hrej
      refine ⟨hlt.trans_le hstep.length_le, hstep.tried ht hlt, fun a hc heq => ?_⟩
      rcases List.mem_append.1 hc with hc | hc
      · exact hnot a hc heq
      · obtain rfl := List.mem_singleton.1 hc
        cases hstep with
        | committed hh =>
          rw [← heq, (hinv.attempts hh).id, hh] at ht
          exact ht
    · refine ⟨hlt.trans_le hstep.length_le, ht', fun a hc heq => ?_⟩
      rcases List.mem_append.1 hc with hc | hc
      · exact ht (heq ▸ hv.tried hc)
      · exact hne a (List.mem_singleton.1 hc).symm

/-- The verdicts, in every run. -/
theorem verdicts_of_run (h₀ : s₀.Fresh) (hrun : Run s₀ tr s) (hlt : allocations tr < 2 ^ 64)
    (hfit : Recoverable tr) : Verdicts tr s := by
  refine (reached_nil h₀).invariant hrun hlt hfit ⟨nofun, fun {h} hrej => ?_⟩
    fun hr _ hv hstep => hv.step hr.toNamed hr.toInv hstep
  rcases hrej with hd | ⟨_, _, -, hc⟩
  · exact absurd hd List.not_mem_nil
  · exact absurd hc List.not_mem_nil

/-! ## The log -/

/-- A record in the log stays there, in every run. -/
theorem records_subset_of_run (hrun : Run s tr s') (hlog : s.inner.log = some log) :
    ∃ log', s'.inner.log = some log' ∧ log.wal.records ⊆ log'.wal.records := by
  refine hrun.invariant
    (motive := fun _ s' => ∃ log', s'.inner.log = some log' ∧ log.wal.records ⊆ log'.wal.records)
    ⟨log, hlog, List.Subset.refl _⟩ fun _ ⟨log₁, hlog₁, hsub₁⟩ hstep => ?_
  obtain ⟨log₂, hlog₂, hsub₂⟩ := hstep.records_subset hlog₁
  exact ⟨log₂, hlog₂, List.Subset.trans hsub₁ hsub₂⟩

theorem commitTs_of_logging {x : Handle} {started : Bool} (hx : x.logging = some (a, started)) :
    x.commitTs = some a.commitTs := by
  cases x with
  | committing b stage =>
    cases stage with
    | applied | appending =>
      obtain ⟨rfl, -⟩ := Prod.mk.inj (Option.some.inj hx)
      rfl
    | _ => cases hx
  | _ => cases hx

/-- A transaction at or below the watermark is in the log, unless its append has failed. -/
theorem Reached.logged_of_le (hr : Reached tr s) (hlog : s.inner.log = some log)
    (hb : b ∈ history tr) (hle : b.commitTs ≤ s.inner.readTs) :
    record b ∈ log.wal.records ∨ AppendFailed tr b := by
  obtain ⟨L, L', hholds⟩ := hr.holds hlog
  -- its timestamp is not held: it is not on its way to the log
  have hnot : ∀ started, (s.handle b.id).logging ≠ some (b, started) := fun started hlogging =>
    absurd (hr.tracks.readTs_lt ⟨b.id, commitTs_of_logging hlogging⟩) (not_lt.2 hle)
  rcases hholds.complete b hb with hL | hstart | ⟨hstart, -⟩ | ⟨-, hfailed⟩
  · exact .inl (hholds.records ▸ List.mem_map_of_mem hL)
  · exact absurd hstart (hnot _)
  · exact absurd hstart (hnot _)
  · exact .inr hfailed

end TxnDb
