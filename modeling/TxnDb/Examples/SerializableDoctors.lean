import TxnDb.Consistency

/-!
# The doctors on call

Two doctors are on call. A doctor goes off call after checking that both are on call
(`tryGoOffCall`), so that one is always left. But two doctors who check at the same time and then
go off call write different keys, and are not in conflict: under snapshot isolation, both commit.

If the transactions in which a doctor goes off call are serializable, somebody is on call for
whatever reader, whoever goes off call at the same time (`someone_on_call`).
-/

namespace TxnDb.Examples.SerializableDoctors

open Mvcc

/-- `on_call:alice` -/
def alice : Key := [111, 110, 95, 99, 97, 108, 108, 58, 97, 108, 105, 99, 101]

/-- `on_call:bob` -/
def bob : Key := [111, 110, 95, 99, 97, 108, 108, 58, 98, 111, 98]

/-- The first transaction puts both on call. -/
def seed : List (Op Key Value) := [.write alice (some [1]), .write bob (some [1])]

/-- The number of doctors on call, where `v` and `w` are read for alice and bob. -/
def onCall (v w : Option Value) : ℕ := [v, w].countP (· = some [1])

/-- What a transaction does in which `doctor` tries to go off call, up to its commit, if it has
    decided to commit. -/
def tryGoOffCall (doctor : Key) (v w : Option Value) : List (Op Key Value) × Bool :=
  if 2 ≤ onCall v w then ([.get alice v, .get bob w, .write doctor (some [0])], true)
  else ([.get alice v, .get bob w], false)

/-- A doctor goes off call in the transaction. -/
def GoesOffCall (ops : List (Op Key Value)) : Prop :=
  ∃ doctor ∈ [alice, bob], ∃ v w, tryGoOffCall doctor v w = (ops, true)

/-- Somebody is on call, since the doctors have been put on call. -/
def Covered (m : Key → Option Value) : Prop :=
  m alice = none ∧ m bob = none ∨ 0 < onCall (m alice) (m bob)

variable {doctor : Key} {v w : Option Value} {m : Key → Option Value} {ops : List (Op Key Value)}
  {tr : List Event} {s₀ s : Sys} {a : Attempt}

theorem onCall_eq :
    onCall v w = (if w = some [1] then 1 else 0) + if v = some [1] then 1 else 0 := by
  simp only [onCall, List.countP_cons, List.countP_nil, decide_eq_true_eq, zero_add]

theorem onCall_pos : 0 < onCall v w ↔ v = some [1] ∨ w = some [1] := by
  rw [onCall_eq]
  split_ifs with hw hv hv <;> simp [hv, hw]

theorem two_le_onCall : 2 ≤ onCall v w ↔ v = some [1] ∧ w = some [1] := by
  rw [onCall_eq]
  split_ifs with hw hv hv <;> simp [hv, hw]

/-! ## Transactions -/

theorem keeps_seed : Keeps Covered seed := fun _ _ _ => .inr (onCall_pos.2 (.inr rfl))

/-- A doctor goes off call only if both are on call. -/
theorem GoesOffCall.eq (h : GoesOffCall ops) : ∃ doctor ∈ [alice, bob],
    ops = [.get alice (some [1]), .get bob (some [1]), .write doctor (some [0])] := by
  obtain ⟨doctor, hdoctor, v, w, h⟩ := h
  rw [tryGoOffCall] at h
  split_ifs at h with htwo
  · obtain ⟨rfl, rfl⟩ := two_le_onCall.1 htwo
    exact ⟨doctor, hdoctor, (Prod.mk.inj h).1.symm⟩
  · cases (Prod.mk.inj h).2

/-- The other one is left. -/
theorem GoesOffCall.keeps (h : GoesOffCall ops) : Keeps Covered ops := by
  intro m _ hrep
  obtain ⟨doctor, hdoctor, rfl⟩ := h.eq
  obtain ⟨halice, hbob, -⟩ := hrep
  refine .inr (onCall_pos.2 ?_)
  simp only [List.mem_cons, List.not_mem_nil, or_false] at hdoctor
  rcases hdoctor with rfl | rfl
  · right
    change Function.update m alice (some [0]) bob = _
    rw [Function.update_of_ne (by decide), hbob]
  · left
    change Function.update m bob (some [0]) alice = _
    rw [Function.update_of_ne (by decide), halice]

/-! ## Runs -/

/-- In every run in which no append fails, the transactions that commit put the doctors on call or
    are those of a doctor who goes off call, and the latter are serializable, every reader sees
    somebody on call, or that nobody has been put on call yet. -/
theorem someone_on_call (h₀ : s₀.Fresh) (hrun : Run s₀ tr s) (hlt : allocations tr < 2 ^ 64)
    (hfit : Recoverable tr) (hnofail : ∀ a d, .appended a (some d) ∉ tr)
    (hdoctors : ∀ a, .committed a ∈ tr → session tr a.id = seed ∨
      GoesOffCall (session tr a.id) ∧ Serializable tr a.id) :
    Covered (fun k => s.inner.store.get k s.inner.readTs) ∧
      ∀ h r, (s.handle h).readTs = some r → Covered fun k => s.inner.store.get k r := by
  have hr := reached_of_run h₀ hrun hlt hfit
  have hcare : Careful Covered tr := by
    refine ⟨fun a hc => ?_, fun a hc => ?_⟩ <;> rcases hdoctors a hc with hs | ⟨hoff, hser⟩
    · refine hr.guarded hc fun k v hg => ?_
      rw [hs] at hg
      simp [seed] at hg
    · exact .inl hser
    · exact hs ▸ keeps_seed
    · exact hoff.keeps
  obtain ⟨B, N, hcons⟩ := consistent_of_run h₀ hrun hlt hfit hnofail (.inl ⟨rfl, rfl⟩) hcare
  exact hcons.sees hr hcare

/-! Both doctors check at the same time, alice goes off call, and then bob tries to. -/

/-- The transaction that puts both on call. -/
def seeding : Attempt := ⟨0, 0, 1, [⟨alice, some [1]⟩, ⟨bob, some [1]⟩], []⟩

/-- The transaction of `h`, in which `doctor` goes off call. -/
def going (h commitTs : ℕ) (doctor : Key) (reads : List Key) : Attempt :=
  ⟨h, 1, commitTs, [⟨doctor, some [0]⟩], reads⟩

def checking (h : ℕ) (doctor : Key) : List Action :=
  [.get h alice, .get h bob, .put h doctor [0]]

def committing (a : Attempt) : List Action :=
  [.commit a.id a.writes a.reads, .tryCommit a.id, .commitDone a.id, .drop a.id]

/-- The schedule of `run`, where the transactions of the doctors are of the given kind, and
    validate what they read. -/
def schedule (kind : Kind) (a b : Attempt) : List Action :=
  [.begin .transaction, .put 0 alice [1], .put 0 bob [1]] ++ committing seeding ++
    [.begin kind, .begin kind] ++ checking 1 alice ++ checking 2 bob ++ committing a ++
    committing b ++ [.begin .snapshot]

/-- Under snapshot isolation, nobody is on call in the end. -/
example : (Trace.exec Sys.step .new (schedule .transaction (going 1 2 alice [])
    (going 2 3 bob []))).map (fun p => onCall (p.2.inner.store.get alice 3)
      (p.2.inner.store.get bob 3)) = some 0 := by
  decide +kernel

/-- The transaction in which alice goes off call. -/
def first : Attempt := going 1 2 alice [bob]

/-- The one in which bob tries to. -/
def second : Attempt := going 2 3 bob [alice]

def checkingTrace (h : ℕ) (doctor : Key) : List Event :=
  [.got h 1 alice (some [1]) false, .got h 1 bob (some [1]) false, .wrote h doctor (some [0])]

def scheduleTrace : List Event :=
  [.began 0 .transaction 0, .wrote 0 alice (some [1]), .wrote 0 bob (some [1]), .allocated seeding,
    .committed seeding, .reported seeding, .returned 0 (.ok 1), .began 1 .serializable 1,
    .began 2 .serializable 1] ++ checkingTrace 1 alice ++ checkingTrace 2 bob ++
    [.allocated first, .committed first, .reported first, .returned 1 (.ok 2), .allocated second,
      .conflicted second (.conflict 13), .reported second, .returned 2 (.error (.conflict 13)),
      .began 3 .snapshot 3]

theorem exec_schedule : (Trace.exec Sys.step .new (schedule .serializable first second)).map
    (Prod.map id fun s => (s.handle 3, s.inner.store.get alice 3)) =
      some (scheduleTrace, .reading 3, some [0]) := by
  decide +kernel

/-- Bob is left. -/
theorem someone_on_call_schedule : ∃ s, Run .new scheduleTrace s ∧
    s.inner.store.get alice 3 = some [0] ∧ s.inner.store.get bob 3 = some [1] := by
  obtain ⟨s, hrun, hs⟩ := run_of_exec exec_schedule
  obtain ⟨hhandle, halice⟩ := Prod.mk.inj hs
  have hdoctors : ∀ a, .committed a ∈ scheduleTrace → session scheduleTrace a.id = seed ∨
      GoesOffCall (session scheduleTrace a.id) ∧ Serializable scheduleTrace a.id := by
    intro a ha
    have hcases : a = seeding ∨ a = first := by simpa [scheduleTrace, checkingTrace] using ha
    rcases hcases with rfl | rfl
    · exact .inl (by decide)
    · exact .inr ⟨⟨alice, by decide, some [1], some [1], by decide⟩, 1, by decide⟩
  have hall := (someone_on_call (.inl rfl) hrun (by decide) (fun ⟨L, hL⟩ => by
    simp [scheduleTrace, checkingTrace] at hL) (by simp [scheduleTrace, checkingTrace])
    hdoctors).2 3 3 (by rw [hhandle]; rfl)
  refine ⟨s, hrun, halice, ?_⟩
  rcases hall with ⟨hnone, -⟩ | hpos
  · exact absurd (halice.symm.trans hnone) (by decide)
  · exact (onCall_pos.1 hpos).resolve_left fun hone => absurd (halice.symm.trans hone) (by decide)

end TxnDb.Examples.SerializableDoctors
