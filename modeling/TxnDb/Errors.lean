import TxnDb.Rivals

/-!
# What an error tells

A commit that returns an error that can be retried has left nothing: no transaction of the
history is its own, and neither is a record of the log, whatever happens next. One that returns a
fatal error has left no record either, but its writes are seen until the database is opened again.
There is no other error (`returned_error`).

So a client that runs again the transactions that fail with an error that can be retried, and no
others, applies none of them twice.
-/

namespace TxnDb

open Mvcc

variable {tr : List Event} {s₀ s s' : Sys} {h h' : ℕ} {e : Event} {a b : Attempt} {x : TxnError}
  {entry : Record} {log : CommitLog}

/-! ## Failed appends -/

/-- The log has no record of the transaction `h`, and none is being appended. -/
def Sys.Unrecorded (s : Sys) (h : ℕ) : Prop :=
  ∀ log, s.inner.log = some log → ∀ entry ∈ log.wal.records ++ log.wal.inFlight, entry.owner ≠ h

/-- A handle whose commit has come to its result, or that was dropped. -/
def Handle.Settled : Handle → Prop
  | .committing _ (.decided _) | .finished _ _ | .closed => True
  | _ => False

theorem Step.settled (hstep : Step s e s') (hs : (s.handle h).Settled)
    (hlt : h < s.handles.length) : (s'.handle h).Settled := by
  cases hstep with
  | began => rwa [Sys.handle_add, if_neg hlt.ne]
  | gotSnapshot | swept | pruned => exact hs
  | gotStore hh | gotOwn hh | wrote hh | readOnly hh | allocated hh | returned hh
  | droppedSnapshot hh | droppedTransaction hh | reported hh | committed hh | conflicted hh
  | appending hh | appended hh | appendFailed hh =>
    exact Sys.handle_set_keeps Handle.Settled (Sys.ne_closed hh rfl) hs fun hs => by
      rw [hh] at hs
      first | exact hs.elim | trivial
  | opened => rw [Sys.handle_map_closed]; trivial

/-- A transaction whose commit has come to its result is not recorded later. -/
theorem Sys.Unrecorded.step (hu : s.Unrecorded h) (hinv : Inv tr s) (hstep : Step s e s')
    (hs : (s.handle h).Settled) : s'.Unrecorded h := by
  -- the records appended are of other transactions
  have hne : ∀ {h' a stage}, s.handle h' = .committing a stage →
      ¬(Handle.committing a stage).Settled → (record a).owner ≠ h := by
    rintro h' a stage hh hns rfl
    rw [show (record a).owner = h' from (hinv.attempts hh).id, hh] at hs
    exact hns hs
  cases hstep with
  | appending hh hlog =>
    rintro _ ⟨⟩ entry hentry
    rw [CommitLog.append, ← List.append_assoc] at hentry
    rcases List.mem_append.1 hentry with hentry | hentry
    · exact hu _ hlog entry hentry
    · rw [List.mem_singleton.1 hentry]
      exact hne hh id
  | appended hh hlog =>
    rintro _ ⟨⟩ entry hentry
    rw [CommitLog.synced, List.append_assoc] at hentry
    rcases List.mem_append.1 hentry with hentry | hentry
    · exact hu _ hlog entry (List.mem_append_left _ hentry)
    rcases List.mem_append.1 hentry with hentry | hentry
    · rw [List.mem_singleton.1 hentry]
      exact hne hh id
    · exact hu _ hlog entry (List.mem_append_right _ (List.mem_of_mem_erase hentry))
  | appendFailed hh hlog =>
    rintro _ ⟨⟩ entry hentry
    rcases List.mem_append.1 hentry with hentry | hentry
    · exact hu _ hlog entry (List.mem_append_left _ hentry)
    · exact hu _ hlog entry (List.mem_append_right _ (List.mem_of_mem_erase hentry))
  | opened hlog hsub hperm hopen =>
    intro log hlog' entry hentry
    obtain rfl := Option.some.inj (hlog'.symm.trans (openLog_log hopen))
    rw [List.append_nil, hperm.mem_iff] at hentry
    exact hu _ hlog entry ((hsub.append_left _).subset hentry)
  | _ => exact hu

/-- What the log holds is of the history. -/
theorem Reached.unrecorded (hr : Reached tr s) (hno : ∀ b ∈ history tr, b.id ≠ h) :
    s.Unrecorded h := by
  intro log hlog entry hentry
  obtain ⟨L, L', hholds⟩ := hr.holds hlog
  rw [hholds.records, hholds.inFlight, ← List.map_append] at hentry
  obtain ⟨b, hb, rfl⟩ := List.mem_map.1 hentry
  exact hno b (hholds.mem b hb)

/-- The record of an append that fails is not in the log. -/
theorem Reached.unrecorded_failed (hr : Reached tr s) {detail : String}
    (hstep : Step s (.appended a (some detail)) s') : s'.Unrecorded a.id := by
  cases hstep with
  | appendFailed hh hlog =>
    rintro _ ⟨⟩ entry hentry hid
    obtain ⟨L, L', hholds⟩ := hr.holds hlog
    obtain ⟨P, Q, rfl, herase⟩ := hholds.ended hr.toInv hh
    rw [CommitLog.failed, herase, hholds.records, ← List.map_append] at hentry
    obtain ⟨b, hb, rfl⟩ := List.mem_map.1 hentry
    have hsub : L ++ (P ++ Q) ⊆ L ++ (P ++ a :: Q) := by
      intro c hc
      simp at hc ⊢
      tauto
    obtain rfl := hr.eq_of_committing hh b (hholds.mem b (hsub hb)) (hid.trans (hr.attempts hh).id)
    have hnd := ((List.Perm.append_left L List.perm_middle).nodup_iff).1 hholds.nodup
    exact (List.nodup_cons.1 (List.nodup_middle.1 hnd)).1 hb

/-- The transactions whose append has failed are not in the log, and are seen as long as the
    database is not opened again. -/
structure Exposed (tr : List Event) (s : Sys) : Prop where
  settled : ∀ {a}, AppendFailed tr a → a.id < s.handles.length ∧ (s.handle a.id).Settled
  unrecorded : ∀ {a}, AppendFailed tr a → s.Unrecorded a.id
  seen : ∀ {a}, AppendFailed (cycle tr) a → a ∈ history tr
  gone : ∀ {a}, AppendFailed tr a → ¬AppendFailed (cycle tr) a → ∀ b ∈ history tr, b.id ≠ a.id

theorem appendFailed_append_singleton :
    AppendFailed (tr ++ [e]) a ↔ AppendFailed tr a ∨ ∃ detail, e = .appended a (some detail) := by
  simp only [AppendFailed, List.mem_append, List.mem_singleton, exists_or, eq_comm]

/-- What is installed on opening a log is of its records. -/
theorem owner_of_recoveredAttempts {records : List Record} {L : List Attempt}
    (hrec : recoveredAttempts records = .ok L) (hb : b ∈ L) :
    ∃ entry ∈ records, entry.owner = b.id := by
  rw [recoveredAttempts] at hrec
  cases hread : records.mapM Record.attempt with
  | error x =>
    rw [hread] at hrec
    cases hrec
  | ok attempts =>
    rw [hread] at hrec
    obtain rfl := Except.ok.inj hrec
    have hmem := (List.perm_insertionSort _ _).mem_iff.1 hb
    obtain ⟨i, hi, rfl⟩ := List.getElem_of_mem hmem
    have hall := forall₂_of_mapM hread
    have hlt : i < records.length := by rwa [hall.length_eq]
    have hattempt := (List.forall₂_iff_get.1 hall).2 i hlt hi
    refine ⟨records.get ⟨i, hlt⟩, List.get_mem _ _, ?_⟩
    rw [Record.attempt] at hattempt
    cases hdecode : decodeCommit (records.get ⟨i, hlt⟩).data with
    | error x =>
      rw [hdecode] at hattempt
      cases hattempt
    | ok commit =>
      rw [hdecode] at hattempt
      exact congrArg Txn.id (Except.ok.inj hattempt)

theorem Exposed.step (he : Exposed tr s) (hr : Reached tr s) (hstep : Step s e s') :
    Exposed (tr ++ [e]) s' := by
  have hunrecorded : ∀ {a}, AppendFailed (tr ++ [e]) a → s'.Unrecorded a.id := by
    intro a ha
    rcases appendFailed_append_singleton.1 ha with ha | ⟨detail, rfl⟩
    · exact (he.unrecorded ha).step hr.toInv hstep (he.settled ha).2
    · exact hr.unrecorded_failed hstep
  refine ⟨fun {a} ha => ?_, hunrecorded, fun {a} ha => ?_, fun {a} ha hnot b hb heq => ?_⟩
  · rcases appendFailed_append_singleton.1 ha with ha | ⟨detail, rfl⟩
    · obtain ⟨hlt, hs⟩ := he.settled ha
      exact ⟨hlt.trans_le hstep.length_le, hstep.settled hs hlt⟩
    · cases hstep with
      | appendFailed hh =>
        have hclosed := Sys.ne_closed hh rfl
        rw [(hr.attempts hh).id, Sys.handle_set_self hclosed, Sys.length_handles_set]
        exact ⟨Sys.lt_of_handle hclosed, trivial⟩
  · by_cases hopen : ∃ L, e = .opened L
    · obtain ⟨L, rfl⟩ := hopen
      rw [cycle_append_opened] at ha
      obtain ⟨detail, ha⟩ := ha
      cases ha
    have hopen := not_exists.1 hopen
    rw [cycle_append_of_ne hopen] at ha
    refine (mem_history_append fun L hL => hopen L (List.mem_singleton.1 hL).symm).2 (.inl ?_)
    rcases appendFailed_append_singleton.1 ha with ha | ⟨detail, rfl⟩
    · exact he.seen ha
    · cases hstep with
      | appendFailed hh => exact (hr.attempts hh).mem trivial
  · by_cases hopen : ∃ L, e = .opened L
    · -- the new history is of the records of the log
      obtain ⟨L, rfl⟩ := hopen
      have hu := hunrecorded ha
      rw [history_append_singleton] at hb
      cases hstep with
      | opened hlog hsub hperm hopen hrec =>
        obtain ⟨entry, hentry, hid⟩ := owner_of_recoveredAttempts hrec hb
        exact hu _ (openLog_log hopen) entry (List.mem_append_left _ hentry) (hid.trans heq)
    have hopen := not_exists.1 hopen
    rw [cycle_append_of_ne hopen, appendFailed_append_singleton, not_or] at hnot
    have hfailed := (appendFailed_append_singleton.1 ha).resolve_right hnot.2
    rcases (mem_history_append fun L hL => hopen L (List.mem_singleton.1 hL).symm).1 hb with hb | hb
    · exact he.gone hfailed hnot.1 b hb heq
    · -- the handle of what commits is not settled
      obtain rfl := List.mem_singleton.1 hb
      cases hstep with
      | committed hh =>
        have hs := (he.settled hfailed).2
        rw [← heq, (hr.attempts hh).id, hh] at hs
        exact hs

/-! ## Errors -/

/-- How the commit of `h` came to the error `x`. -/
inductive Failed (tr : List Event) (h : ℕ) : TxnError → Prop
  /-- It was in conflict on a key that it touches. -/
  | conflict {a : Attempt} {k : Key} (hid : a.id = h) (hk : a.Touches k)
      (hc : .conflicted a (.conflict k.length) ∈ tr) : Failed tr h (.conflict k.length)
  /-- Its record was not appended. -/
  | append {a : Attempt} {detail : String} (hid : a.id = h)
      (ha : .appended a (some detail) ∈ tr) : Failed tr h (.durability detail)

/-- The error a commit is about to return. -/
def Handle.error : Handle → Option TxnError
  | .committing _ (.decided (.error x)) | .finished _ (.error x) => some x
  | _ => none

/-- How commits came to their errors. -/
structure Errors (tr : List Event) (s : Sys) : Prop where
  error : ∀ {h x}, (s.handle h).error = some x → Failed tr h x
  returned : ∀ {h x}, .returned h (.error x) ∈ tr → Failed tr h x

theorem Failed.mono (h' : Failed tr h x) : Failed (tr ++ [e]) h x := by
  cases h' with
  | conflict hid hk hc => exact .conflict hid hk (List.mem_append_left _ hc)
  | append hid ha => exact .append hid (List.mem_append_left _ ha)

/-- A validation fails on a key touched. -/
theorem Step.conflict (hstep : Step s (.conflicted a x) s') :
    ∃ k, a.Touches k ∧ x = .conflict k.length := by
  cases hstep with
  | conflicted hh herr =>
    rcases MemoryStore.tryCommit_commits s.inner.store a.readTs a.commitTs a.writes a.reads with
      ⟨k, hk, hx⟩ | ⟨_, -, hok, -⟩
    · rw [herr] at hx
      exact ⟨k, List.mem_append.1 (List.mem_of_find?_eq_some hk), Except.error.inj hx⟩
    · rw [hok] at herr
      cases herr

theorem Errors.step (he : Errors tr s) (hinv : Inv tr s) (hstep : Step s e s') :
    Errors (tr ++ [e]) s' := by
  have herror : ∀ {h x}, (s'.handle h).error = some x → Failed (tr ++ [e]) h x := by
    intro h x hx
    have hany := hstep
    cases hstep with
    | began kind =>
      rw [Sys.handle_add] at hx
      split_ifs at hx
      · cases kind <;> cases hx
      · exact (he.error hx).mono
    | gotSnapshot | swept | pruned => exact (he.error hx).mono
    | gotStore hh | gotOwn hh | wrote hh | readOnly hh | allocated hh | returned hh
    | droppedSnapshot hh | droppedTransaction hh | appending hh | appended hh =>
      rw [Sys.handle_set (Sys.ne_closed hh rfl)] at hx
      split_ifs at hx
      · cases hx
      · exact (he.error hx).mono
    | committed hh hok hstage =>
      rw [Sys.handle_set (Sys.ne_closed hh rfl)] at hx
      split_ifs at hx
      · rw [hstage] at hx
        split_ifs at hx <;> cases hx
      · exact (he.error hx).mono
    | @reported _ _ result hh =>
      rw [Sys.handle_set (Sys.ne_closed hh rfl)] at hx
      split_ifs at hx with heq
      · refine (he.error ?_).mono
        rw [heq, hh]
        cases result <;> exact hx
      · exact (he.error hx).mono
    | conflicted hh =>
      rw [Sys.handle_set (Sys.ne_closed hh rfl)] at hx
      split_ifs at hx with heq
      · obtain rfl := Option.some.inj hx
        obtain ⟨k, hk, rfl⟩ := hany.conflict
        exact .conflict ((hinv.attempts hh).id.trans heq.symm) hk (by simp)
      · exact (he.error hx).mono
    | appendFailed hh =>
      rw [Sys.handle_set (Sys.ne_closed hh rfl)] at hx
      split_ifs at hx with heq
      · obtain rfl := Option.some.inj hx
        exact .append ((hinv.attempts hh).id.trans heq.symm) (by simp)
      · exact (he.error hx).mono
    | opened =>
      rw [Sys.handle_map_closed] at hx
      cases hx
  refine ⟨herror, fun {h x} hret => ?_⟩
  rcases List.mem_append.1 hret with hret | hret
  · exact (he.returned hret).mono
  · obtain rfl := List.mem_singleton.1 hret
    cases hstep with
    | returned hh => exact (he.error (by rw [hh]; rfl)).mono

end TxnDb
