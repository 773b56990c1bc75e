import TxnDb.Recovery
import TxnDb.Sessions

/-!
# What the log holds

The log of a durable database holds the records of transactions of the history
(`Holds`): those whose append returned, and those being appended. Every
transaction of the history is one of these, or is about to be appended, or its
append has failed. A record whose append returned is there forever (`Logged.kept`),
so that the database can always be opened again (`Holds.opened`).
-/

namespace TxnDb

open Mvcc

variable {tr : List Event} {s s' : Sys} {h : ℕ} {e : Event} {a : Attempt} {x : Handle}
  {inner : Inner} {log : CommitLog} {L L' : List Attempt}

/-- The attempt to append, and whether its append has begun. -/
def Handle.logging : Handle → Option (Attempt × Bool)
  | .committing a .applied => some (a, false)
  | .committing a .appending => some (a, true)
  | _ => none

/-- The append of the record of `a` has failed. -/
def AppendFailed (tr : List Event) (a : Attempt) : Prop := ∃ detail, .appended a (some detail) ∈ tr

/-- The log holds the records of the attempts `L`, and is being appended those of `L'`. -/
structure Holds (tr : List Event) (s : Sys) (log : CommitLog) (L L' : List Attempt) : Prop where
  records : log.wal.records = L.map record
  inFlight : log.wal.inFlight = L'.map record
  nodup : (L ++ L').Nodup
  mem : ∀ a ∈ L ++ L', a ∈ history tr
  /-- The records in flight are of attempts being appended. -/
  appending : ∀ a ∈ L', (s.handle a.id).logging = some (a, true)
  /-- What is in the log is not to be appended. -/
  logged : ∀ a ∈ L, (s.handle a.id).logging = none
  /-- Every transaction of the history is in the log, on its way there, or has failed to get
      there. -/
  complete : ∀ a ∈ history tr, a ∈ L ∨ (s.handle a.id).logging = some (a, false) ∨
    ((s.handle a.id).logging = some (a, true) ∧ a ∈ L') ∨
    ((s.handle a.id).logging = none ∧ AppendFailed tr a)

/-- What the log of a durable database holds. -/
structure Logged (tr : List Event) (s : Sys) : Prop where
  holds : ∀ {log}, s.inner.log = some log → ∃ L L', Holds tr s log L L'
  /-- A record whose append returned is kept. -/
  kept : ∀ {log a}, s.inner.log = some log → .appended a none ∈ tr → record a ∈ log.wal.records
  /-- The transactions of the history were committed. -/
  origin : ∀ b ∈ history tr, ∃ a, .committed a ∈ tr ∧ record a = record b ∧
    a.commitTs = b.commitTs ∧ a.writes = b.writes
  nodupKeys : ∀ a ∈ history tr, a.writes.NodupKeys

theorem AppendFailed.mono (h : AppendFailed tr a) : AppendFailed (tr ++ [e]) a :=
  h.imp fun _ => List.mem_append_left _

/-- What the log holds, when a step concerns neither it nor the history. -/
theorem Holds.frame (hl : Holds tr s log L L') (hhist : e.extend (history tr) = history tr)
    (hsame : ∀ a ∈ history tr, (s'.handle a.id).logging = (s.handle a.id).logging) :
    Holds (tr ++ [e]) s' log L L' := by
  have hhist' : history (tr ++ [e]) = history tr := by rw [history_append_singleton, hhist]
  have hmem := hl.mem
  refine ⟨hl.records, hl.inFlight, hl.nodup, by rwa [hhist'], fun a ha => ?_, fun a ha => ?_, ?_⟩
  · rw [hsame a (hmem a (List.mem_append_right _ ha))]
    exact hl.appending a ha
  · rw [hsame a (hmem a (List.mem_append_left _ ha))]
    exact hl.logged a ha
  · rw [hhist']
    intro a ha
    rw [hsame a ha]
    exact (hl.complete a ha).imp_right (.imp_right (.imp_right (.imp_right .mono)))

theorem logging_set (hh : s.handle h ≠ .closed) (hx : x.logging = (s.handle h).logging) (h' : ℕ) :
    ((s.set h x inner).handle h').logging = (s.handle h').logging :=
  Sys.handle_set_congr Handle.logging hh hx h'

/-- The record of an attempt is taken out of those in flight. -/
theorem erase_record {P Q : List Attempt} (hne : ∀ b ∈ P, b.id ≠ a.id) :
    ((P ++ a :: Q).map record).erase (record a) = (P ++ Q).map record := by
  rw [List.map_append, List.map_cons, List.erase_append_right, List.erase_cons_head,
    List.map_append]
  intro hmem
  obtain ⟨b, hb, heq⟩ := List.mem_map.1 hmem
  exact hne b hb (congrArg Record.owner heq)

namespace Holds

/-- The writes of an attempt are applied: its record is to be appended. -/
theorem committed (hl : Holds tr s log L L') (hinv : Inv tr s) {store : MemoryStore}
    (hh : s.handle h = .committing a .allocated) :
    Holds (tr ++ [.committed a]) (s.set h (.committing a .applied) { s.inner with store })
      log L L' := by
  have hclosed : s.handle h ≠ .closed := Sys.ne_closed hh rfl
  have hatt := hinv.attempts hh
  -- the attempt is the first of its handle
  have hne : ∀ b ∈ history tr, b.id ≠ h := fun b hb heq => by
    have hp := (hinv.past b hb).2
    rw [heq, hh] at hp
    exact (hatt.eq_of_mem b hb (congrArg Txn.commitTs hp.symm)).2
  have hsame : ∀ b ∈ history tr, (s.set h (.committing a .applied) { s.inner with store }).handle
      b.id = s.handle b.id := fun b hb => Sys.handle_set_of_ne (hne b hb)
  have hhist : history (tr ++ [.committed a]) = history tr ++ [a] := history_append_singleton
  have hmem := hl.mem
  refine ⟨hl.records, hl.inFlight, hl.nodup, fun b hb => ?_, fun b hb => ?_, fun b hb => ?_,
    fun b hb => ?_⟩
  · rw [hhist]
    exact List.mem_append_left _ (hmem b hb)
  · rw [hsame b (hmem b (List.mem_append_right _ hb))]
    exact hl.appending b hb
  · rw [hsame b (hmem b (List.mem_append_left _ hb))]
    exact hl.logged b hb
  · rw [hhist] at hb
    rcases List.mem_append.1 hb with hb | hb
    · rw [hsame b hb]
      exact (hl.complete b hb).imp_right (.imp_right (.imp_right (.imp_right .mono)))
    · rw [List.mem_singleton.1 hb, hatt.id, Sys.handle_set_self hclosed]
      exact .inr (.inl rfl)

/-- The append of a record begins. -/
theorem append (hl : Holds tr s log L L') (hinv : Inv tr s)
    (hh : s.handle h = .committing a .applied) :
    Holds (tr ++ [.appending a]) (s.set h (.committing a .appending)
      { s.inner with log := some (log.append (record a)) })
      (log.append (record a)) L (L' ++ [a]) := by
  have hclosed : s.handle h ≠ .closed := Sys.ne_closed hh rfl
  obtain ⟨hid, -, hin, -⟩ := hinv.attempts hh
  have hhist : history (tr ++ [.appending a]) = history tr := history_append_singleton
  have heq := hinv.eq_of_committing hh
  -- the record is neither in the log nor in flight, as its handle has yet to append it
  have hlog : (s.handle a.id).logging = some (a, false) := by rw [hid, hh]; rfl
  have hL : a ∉ L := fun ha => by
    have := hl.logged a ha
    rw [hlog] at this
    cases this
  have hL' : a ∉ L' := fun ha => by
    have := hl.appending a ha
    rw [hlog] at this
    cases this
  have hmem : ∀ b ∈ L ++ (L' ++ [a]), b ∈ history tr := fun b hb => by
    rw [← List.append_assoc] at hb
    rcases List.mem_append.1 hb with hb | hb
    · exact hl.mem b hb
    · exact List.mem_singleton.1 hb ▸ hin trivial
  refine ⟨hl.records, ?_, ?_, by rwa [hhist], fun b hb => ?_, fun b hb => ?_, fun b hb => ?_⟩
  · simp [CommitLog.append, hl.inFlight]
  · rw [← List.append_assoc]
    refine hl.nodup.append (List.nodup_singleton a) fun b hb hb' => ?_
    obtain rfl := List.mem_singleton.1 hb'
    exact (List.mem_append.1 hb).elim hL hL'
  · rw [Sys.handle_set hclosed]
    split_ifs with hbh
    · rw [heq b (hmem b (List.mem_append_right _ hb)) hbh]
      rfl
    · refine hl.appending b ((List.mem_append.1 hb).resolve_right fun hb => ?_)
      exact hbh (List.mem_singleton.1 hb ▸ hid)
  · rw [Sys.handle_set_of_ne]
    · exact hl.logged b hb
    · exact fun hbh => hL (heq b (hmem b (List.mem_append_left _ hb)) hbh ▸ hb)
  · rw [hhist] at hb
    rw [Sys.handle_set hclosed]
    split_ifs with hbh
    · obtain rfl := heq b hb hbh
      exact .inr (.inr (.inl ⟨rfl, by simp⟩))
    · exact (hl.complete b hb).imp_right
        (.imp_right (.imp (.imp_right (List.mem_append_left _)) (.imp_right .mono)))

/-- The append of a record returns: the record is no longer in flight. -/
theorem ended (hl : Holds tr s log L L') (hinv : Inv tr s)
    (hh : s.handle h = .committing a .appending) :
    ∃ P Q, L' = P ++ a :: Q ∧ log.wal.inFlight.erase (record a) = (P ++ Q).map record := by
  obtain ⟨hid, -, hin, -⟩ := hinv.attempts hh
  have hlog : (s.handle a.id).logging = some (a, true) := by rw [hid, hh]; rfl
  have hmem : a ∈ L' := by
    rcases hl.complete a (hin trivial) with ha | ha | ⟨-, ha⟩ | ⟨ha, -⟩
    · have := hl.logged a ha
      rw [hlog] at this
      cases this
    · rw [hlog] at ha
      cases ha
    · exact ha
    · rw [hlog] at ha
      cases ha
  obtain ⟨P, Q, rfl⟩ := List.append_of_mem hmem
  refine ⟨P, Q, rfl, ?_⟩
  rw [hl.inFlight, erase_record]
  intro b hb hbh
  -- the handle of an attempt in flight is appending it
  have hbl := hl.appending b (List.mem_append_left _ hb)
  rw [hbh, hlog] at hbl
  obtain rfl := (Prod.mk.inj (Option.some.inj hbl)).1
  have hnd := (List.nodup_append.1 hl.nodup).2.1
  exact (List.nodup_append.1 hnd).2.2 a hb a List.mem_cons_self rfl

/-- What the log holds once the append of the record of `a` has returned, with `a`
    or without. -/
theorem ended_step (hl : Holds tr s log L L') (hinv : Inv tr s) {failure : Option String}
    {result : Except TxnError ℕ} {log' : CommitLog} {P Q : List Attempt}
    (hh : s.handle h = .committing a .appending) (hL' : L' = P ++ a :: Q)
    (hin : log'.wal.inFlight = (P ++ Q).map record) {K : List Attempt}
    (hrec : log'.wal.records = (L ++ K).map record) (hK : K = [] ∧ failure.isSome ∨ K = [a]) :
    Holds (tr ++ [.appended a failure]) (s.set h (.committing a (.decided result)) inner)
      log' (L ++ K) (P ++ Q) := by
  have hclosed : s.handle h ≠ .closed := Sys.ne_closed hh rfl
  subst hL'
  have hatt := hinv.attempts hh
  have hhist : history (tr ++ [.appended a failure]) = history tr := history_append_singleton
  have heq := hinv.eq_of_committing hh
  have hnd : (L ++ a :: (P ++ Q)).Nodup :=
    ((List.Perm.append_left L List.perm_middle).nodup_iff).1 hl.nodup
  have hsub : ∀ b ∈ L ++ K ++ (P ++ Q), b ∈ L ++ (P ++ a :: Q) := fun b hb => by
    rcases hK with ⟨rfl, -⟩ | rfl <;> simp at hb ⊢ <;> tauto
  have hlogging : ((s.set h (.committing a (.decided result)) inner).handle h).logging = none := by
    rw [Sys.handle_set_self hclosed]
    rfl
  refine ⟨hrec, hin, ?_, fun b hb => ?_, fun b hb => ?_, fun b hb => ?_, fun b hb => ?_⟩
  · rcases hK with ⟨rfl, -⟩ | rfl
    · rw [List.append_nil]
      exact hnd.sublist ((List.sublist_cons_self _ _).append_left _)
    · rw [List.append_assoc]
      exact hnd
  · rw [hhist]
    exact hl.mem b (hsub b hb)
  -- what is still in flight is of other handles
  · have hne : b.id ≠ h := fun hbh => by
      have hba := heq b (hl.mem b (hsub b (List.mem_append_right _ hb))) hbh
      exact (List.nodup_cons.1 (List.nodup_append.1 hnd).2.1).1 (hba ▸ hb)
    rw [Sys.handle_set_of_ne hne]
    refine hl.appending b ?_
    simp at hb ⊢
    tauto
  · by_cases hbh : b.id = h
    · rw [hbh, hlogging]
    · rw [Sys.handle_set_of_ne hbh]
      refine hl.logged b ((List.mem_append.1 hb).resolve_right fun hb => hbh ?_)
      rcases hK with ⟨rfl, -⟩ | rfl
      · cases hb
      · rw [List.mem_singleton.1 hb, hatt.id]
  -- the record of `a` is in the log, or its append has failed; the others are where they were
  · rw [hhist] at hb
    by_cases hbh : b.id = h
    · obtain rfl := heq b hb hbh
      rcases hK with ⟨rfl, hf⟩ | rfl
      · obtain ⟨detail, rfl⟩ := Option.isSome_iff_exists.1 hf
        exact .inr (.inr (.inr ⟨hbh ▸ hlogging, detail, by simp⟩))
      · exact .inl (by simp)
    · rw [Sys.handle_set_of_ne hbh]
      refine (hl.complete b hb).imp (List.mem_append_left _)
        (.imp_right (.imp (.imp_right fun hb => ?_) (.imp_right .mono)))
      have hne : b ≠ a := fun hba => hbh (hba ▸ hatt.id)
      simp [hne] at hb ⊢
      exact hb

/-- The records left after a crash are those of transactions of the history: all
    that were in the log, and some in flight. -/
theorem crash (hl : Holds tr s log L L') {survivors records : List Record}
    (hsub : survivors.Sublist log.wal.inFlight)
    (hperm : records.Perm (log.wal.records ++ survivors)) :
    ∃ M K : List Attempt, records = M.map record ∧ K.Sublist L' ∧ M.Perm (L ++ K) ∧ M.Nodup ∧
      ∀ a ∈ M, a ∈ history tr := by
  rw [hl.inFlight] at hsub
  obtain ⟨K, hK, rfl⟩ := List.sublist_map_iff.1 hsub
  rw [hl.records, ← List.map_append] at hperm
  obtain ⟨M, hM, hMK⟩ : Relation.Comp (· = List.map record ·) List.Perm records (L ++ K) := by
    rw [List.eq_map_comp_perm]
    exact hperm
  have hsub' : (L ++ K).Sublist (L ++ L') := hK.append_left L
  exact ⟨M, K, hM, hK, hMK, hMK.nodup_iff.2 (hl.nodup.sublist hsub'),
    fun a ha => hl.mem a (hsub'.subset (hMK.subset ha))⟩

/-- A log that was just opened. -/
theorem opened {M : List Attempt} (hnd : ((M.map replayed).map (·.commitTs)).Nodup)
    (hs : ∀ h, s.handle h = .closed) :
    Holds (tr ++ [.opened (recovered M)]) s ⟨⟨M.map record, []⟩⟩ (M.map replayed) [] := by
  have hhist : history (tr ++ [.opened (recovered M)]) = recovered M := history_append_singleton
  refine ⟨by rw [List.map_map]; rfl, rfl, ?_, fun a ha => ?_, nofun, fun a _ => by rw [hs]; rfl,
    fun a ha => ?_⟩
  · rw [List.append_nil]
    exact hnd.of_map _
  · rw [hhist]
    exact recovered_perm.mem_iff.2 (by simpa using ha)
  · rw [hhist] at ha
    exact .inl (recovered_perm.mem_iff.1 ha)

end Holds

namespace Logged

/-- After a crash, the log is made of records of transactions of the history, and
    the database opens on it. -/
theorem crash (hl : Logged tr s) (hinv : Inv tr s)
    (hfit : ∀ a, .committed a ∈ tr → Fits a.writes) (hlog : s.inner.log = some log)
    {survivors records : List Record} (hsub : survivors.Sublist log.wal.inFlight)
    (hperm : records.Perm (log.wal.records ++ survivors)) :
    ∃ M : List Attempt, records = M.map record ∧ M.Nodup ∧ (∀ a ∈ M, a ∈ history tr ∧ Loggable a) ∧
      Inner.openLog records = .ok ⟨(replay (recovered M)).2,
        .recovered (highest (recovered M)), some ⟨⟨M.map record, []⟩⟩⟩ ∧
      recoveredAttempts records = .ok (recovered M) := by
  obtain ⟨L, L', hholds⟩ := hl.holds hlog
  obtain ⟨M, K, rfl, -, -, hnd, hmem⟩ := hholds.crash hsub hperm
  have hloggable : ∀ a ∈ M, Loggable a := fun a ha => by
    obtain ⟨b, hb, -, -, hw⟩ := hl.origin a (hmem a ha)
    exact ⟨(hinv.commit_le a (hmem a ha)).trans_lt hinv.tracks.lt, hw ▸ hfit b hb⟩
  exact ⟨M, rfl, hnd, fun a ha => ⟨hmem a ha, hloggable a ha⟩, openLog_records hloggable,
    recoveredAttempts_records hloggable⟩

theorem holds_step (hl : Logged tr s) (hinv : Inv tr s) (hstep : Step s e s')
    (hopen : ∀ L, e ≠ .opened L) {log : CommitLog} (hlog : s'.inner.log = some log) :
    ∃ L L', Holds (tr ++ [e]) s' log L L' := by
  cases hstep with
  | began kind =>
    obtain ⟨L, L', hh⟩ := hl.holds hlog
    refine ⟨L, L', hh.frame rfl fun a ha => ?_⟩
    rw [Sys.handle_add, if_neg (hinv.past a ha).1.ne]
  | gotSnapshot | swept | pruned =>
    obtain ⟨L, L', hh⟩ := hl.holds hlog
    exact ⟨L, L', hh.frame rfl fun a ha => rfl⟩
  | gotStore hh | gotOwn hh | wrote hh | readOnly hh | conflicted hh | allocated hh
  | reported hh | returned hh | droppedSnapshot hh | droppedTransaction hh =>
    obtain ⟨L, L', hholds⟩ := hl.holds hlog
    exact ⟨L, L', hholds.frame rfl fun a ha =>
      logging_set (Sys.ne_closed hh rfl) (by simp only [hh, Handle.logging]) _⟩
  | committed hh hok hstage =>
    have hlog' : s.inner.log = some log := hlog
    obtain ⟨L, L', hholds⟩ := hl.holds hlog'
    rw [hlog'] at hstage
    exact ⟨L, L', hstage ▸ hholds.committed hinv hh⟩
  | appending hh hlog' =>
    obtain rfl := Option.some.inj hlog
    obtain ⟨L, L', hholds⟩ := hl.holds hlog'
    exact ⟨L, L' ++ [_], hholds.append hinv hh⟩
  | appended hh hlog' =>
    obtain rfl := Option.some.inj hlog
    obtain ⟨L, L', hholds⟩ := hl.holds hlog'
    obtain ⟨P, Q, hL', herase⟩ := hholds.ended hinv hh
    exact ⟨_, _, hholds.ended_step hinv hh hL' herase
      (by simp [CommitLog.synced, hholds.records]) (.inr rfl)⟩
  | appendFailed hh hlog' =>
    obtain rfl := Option.some.inj hlog
    obtain ⟨L, L', hholds⟩ := hl.holds hlog'
    obtain ⟨P, Q, hL', herase⟩ := hholds.ended hinv hh
    exact ⟨_, _, hholds.ended_step hinv hh hL' herase
      (by simp [CommitLog.failed, hholds.records]) (.inl ⟨rfl, rfl⟩)⟩
  | opened => exact absurd rfl (hopen _)

theorem kept_step (hl : Logged tr s) (hstep : Step s e s') {log : CommitLog}
    (hlog : s'.inner.log = some log) (ha : .appended a none ∈ tr ++ [e]) :
    record a ∈ log.wal.records := by
  rcases List.mem_append.1 ha with hold | hnew
  · obtain ⟨log₀, hlog₀⟩ : ∃ log₀, s.inner.log = some log₀ :=
      Option.isSome_iff_exists.1 (by rw [← hstep.isSome_log, hlog]; rfl)
    obtain ⟨log', hlog', hsub⟩ := hstep.records_subset hlog₀
    obtain rfl := Option.some.inj (hlog.symm.trans hlog')
    exact hsub (hl.kept hlog₀ hold)
  · obtain rfl := List.mem_singleton.1 hnew
    cases hstep with
    | appended hh hlog' =>
      obtain rfl := Option.some.inj hlog
      exact List.mem_append_right _ (List.mem_singleton_self _)

/-- Every step preserves what the log holds. -/
theorem step (hl : Logged tr s) (hinv : Inv tr s) (hstep : Step s e s')
    (hfit : (∃ L, e = .opened L) → ∀ a, .committed a ∈ tr → Fits a.writes) :
    Logged (tr ++ [e]) s' := by
  have hmono : ∀ {b : Attempt}, (∃ a, .committed a ∈ tr ∧ record a = record b ∧
      a.commitTs = b.commitTs ∧ a.writes = b.writes) → ∃ a, .committed a ∈ tr ++ [e] ∧
      record a = record b ∧ a.commitTs = b.commitTs ∧ a.writes = b.writes :=
    fun ⟨a, ha, h⟩ => ⟨a, List.mem_append_left _ ha, h⟩
  have hany := hstep
  cases hstep with
  | opened hlog hsub hperm hopen hrec =>
    -- the log opens on transactions `M` of the history, which are the new history
    obtain ⟨M, rfl, hnd, hmem, hopen', hrec'⟩ := hl.crash hinv (hfit ⟨_, rfl⟩) hlog hsub hperm
    rw [hopen] at hopen'
    rw [hrec] at hrec'
    obtain rfl := Except.ok.inj hopen'
    obtain rfl := Except.ok.inj hrec'
    have hhist : history (tr ++ [.opened (recovered M)]) = recovered M := history_append_singleton
    have hndts : ((M.map replayed).map (·.commitTs)).Nodup := by
      rw [List.map_map]
      exact hnd.map_on fun a ha b hb heq =>
        hinv.valid.eq_of_commitTs_eq (hmem a ha).1 (hmem b hb).1 heq
    refine ⟨fun hlog => ?_, hl.kept_step hany, fun b hb => ?_, fun b hb => ?_⟩
    · obtain rfl := Option.some.inj hlog
      exact ⟨_, _, Holds.opened hndts (Sys.handle_map_closed _ _)⟩
    · rw [hhist] at hb
      obtain ⟨a, ha, rfl⟩ := mem_recovered.1 hb
      exact hmono (hl.origin a (hmem a ha).1)
    · rw [hhist] at hb
      obtain ⟨a, ha, rfl⟩ := mem_recovered.1 hb
      exact hl.nodupKeys a (hmem a ha).1
  | @committed h a store stage hh hok hstage =>
    have hhist : history (tr ++ [.committed a]) = history tr ++ [a] := history_append_singleton
    refine ⟨hl.holds_step hinv hany nofun, hl.kept_step hany, fun b hb => ?_, fun b hb => ?_⟩
    · rw [hhist] at hb
      rcases List.mem_append.1 hb with hb | hb
      · exact hmono (hl.origin b hb)
      · obtain rfl := List.mem_singleton.1 hb
        exact ⟨b, by simp, rfl, rfl, rfl⟩
    · rw [hhist] at hb
      rcases List.mem_append.1 hb with hb | hb
      · exact hl.nodupKeys b hb
      · obtain rfl := List.mem_singleton.1 hb
        exact (hinv.attempts hh).nodupKeys
  | _ =>
    refine ⟨hl.holds_step hinv hany nofun, hl.kept_step hany, fun b hb => ?_, fun b hb => ?_⟩ <;>
      rw [history_append_singleton] at hb
    · exact hmono (hl.origin b hb)
    · exact hl.nodupKeys b hb

end Logged

end TxnDb
