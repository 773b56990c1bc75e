import TxnDb.Quiet.Alone

/-!
# No conflict without a rival

A transaction that begins when no commit is in flight, and commits with no step of another commit
in between, is not in conflict, and leaves its writes to the next snapshot
(`no_spurious_conflict`); and the loops of `put` and `delete` return from their first round.
-/

namespace TxnDb

open Mvcc

variable {tr tr' : List Event} {s₀ s s' t : Sys} {h r : ℕ} {e : Event} {a : Attempt} {k : Key}
  {c : List Version} {store : MemoryStore}

/-- The transaction `h`, which began in `s`, is not disturbed. -/
structure Undisturbed (s : Sys) (h : ℕ) (tr : List Event) (t : Sys) : Prop where
  conflicted : ∀ a e, .conflicted a e ∉ tr
  /-- Its commit succeeds, whenever it is called. -/
  commits : ∀ tx batch reads, t.handle h = .active tx →
    (t.inner.commitWrites h tx.readTs batch reads none).1 = .ok t.inner.oracle.nextTs
  /-- A commit that returned has succeeded, and the next snapshot reads what the
      transaction last wrote, and for the other keys what was read before. -/
  returned : ∀ result, .returned h result ∈ tr → (∃ c, result = .ok c) ∧
    ∀ k, t.inner.store.get k t.inner.readTs =
      (buffered (session tr h) k).getD (s.inner.store.get k s.inner.readTs)

theorem Alone.undisturbed (ha : Alone s h tr t) (hb : Bounded s.inner.readTs s) :
    Undisturbed s h tr t := by
  refine ⟨ha.conflicted, fun tx batch reads hh => ?_, fun result hret => ?_⟩
  · obtain ⟨hu, hr, -⟩ := ha.stage_eq hh
    obtain ⟨store, hok⟩ :=
      hu.tryCommit (a := ⟨h, tx.readTs, t.inner.oracle.nextTs, batch, reads⟩) hr
    simp only [Inner.commitWrites, Inner.allocCommitTs, Oracle.allocCommitTs, hok]
    cases t.inner.log <;> rfl
  · obtain ⟨hclosed, hok, hw⟩ := ha.returned result hret
    refine ⟨hok, fun k => ?_⟩
    rw [ha.get_eq hclosed, hw k, MemoryStore.get_eq_lastValue (hb.versions_le k)]

theorem undisturbed_of_run {kind : Kind} (hb : Bounded s.inner.readTs s) (hq : s.Quiescent)
    (hrun : Run s (.began h kind r :: tr) t) (hown : ∀ e ∈ tr, e.Alone h)
    (hlt : s.inner.readTs + allocations tr < 2 ^ 64) : Undisturbed s h tr t := by
  obtain ⟨s', ⟨action, hstep⟩, hrun⟩ := hrun.uncons
  exact ((Alone.began hb hq (step_inv hstep) (by omega)).of_run hrun hown hlt).undisturbed hb

/-! ## The loops of put and delete -/

/-- What is observed of a commit is its own, takes one timestamp, and is no operation. -/
theorem alone_commit (inner : Inner) (a : Attempt) (result : Except TxnError ℕ) :
    (∀ e ∈ .allocated a :: inner.commitEvents a none ++ [.reported a, .returned a.id result],
      e.Alone a.id ∧ ∀ h, e.op h = none) ∧
    allocations (.allocated a :: inner.commitEvents a none ++
      [.reported a, .returned a.id result]) = 1 := by
  have hevents : ∀ e ∈ inner.commitEvents a none,
      e.Alone a.id ∧ ¬e.allocates ∧ ∀ h, e.op h = none := by
    rw [Inner.commitEvents]
    split
    · simp [Event.Alone, Event.allocates, Event.op]
    · split_ifs <;> simp [Event.Alone, Event.allocates, Event.op]
  constructor
  · intro e he
    rcases List.mem_append.1 he with he | he
    · rcases List.mem_cons.1 he with rfl | he
      · exact ⟨rfl, fun _ => rfl⟩
      · exact ⟨(hevents e he).1, (hevents e he).2.2⟩
    · rcases List.mem_pair.1 he with rfl | rfl
      · exact ⟨rfl, fun _ => rfl⟩
      · exact ⟨trivial, fun _ => rfl⟩
  · have hnone : (inner.commitEvents a none).countP Event.allocates = 0 :=
      List.countP_eq_zero.2 fun e he => (hevents e he).2.1
    rw [allocations, List.countP_append, List.countP_cons_of_pos rfl, hnone]
    rfl

/-- A transaction begins, and writes. -/
theorem run_begin_write (s : Sys) (key : Key) (v : Option Value) :
    ∃ t, Run s [.began s.handles.length .transaction s.inner.readTs,
        .wrote s.handles.length key v] t ∧
      t.handle s.handles.length = .active
        { Transaction.new s.inner.readTs false with writes := AList.insert key v ∅ } ∧
      t.inner = s.inner.beginReader.2 := by
  let s₁ := s.add (.begin s.inner.readTs .transaction) s.inner.beginReader.2
  have hh₁ : s₁.handle s.handles.length = .active (.new s.inner.readTs false) := by
    rw [Sys.handle_add, if_pos rfl]
    rfl
  have hbegin : Run s [.began s.handles.length .transaction s.inner.readTs] s₁ :=
    Trace.Run.single ⟨.begin .transaction, rfl⟩
  refine ⟨_, hbegin.append (Trace.Run.single ?_), Sys.handle_set_self (Sys.ne_closed hh₁ rfl), rfl⟩
  cases v with
  | none => exact ⟨.delete s.handles.length key, by simp only [Sys.step, hh₁]; rfl⟩
  | some v => exact ⟨.put s.handles.length key v, by simp only [Sys.step, hh₁]; rfl⟩

/-- A round whose commit succeeds is the last one. -/
theorem Inner.retry_of_ok {inner inner' : Inner} {owner c fuel : ℕ}
    {write : Transaction → Transaction} {failure : Option String}
    (hok : inner.beginReader.2.commitWrites owner inner.readTs
      (write (.new inner.readTs false)).writes.entries [] failure = (.ok c, inner')) :
    inner.retry owner write failure (fuel + 1) = some (.ok c, inner'.endReader inner.readTs) := by
  have hread : inner.beginReader.1 = inner.readTs := rfl
  simp only [Inner.retry, hread, hok]

/-- From a state with no commit in flight, the loop returns from its first round, with
    the next timestamp, and its write is what is read. -/
theorem retry_returns (hb : Bounded s.inner.readTs s) (hq : s.Quiescent)
    (hlt : s.inner.readTs + 1 < 2 ^ 64) (key : Key) (v : Option Value) (fuel : ℕ) :
    ∃ inner, s.inner.retry s.handles.length (fun tx => { tx with writes := tx.writes.insert key v })
        none (fuel + 1) = some (.ok (s.inner.readTs + 1), inner) ∧
      ∀ k, inner.store.get k inner.readTs =
        if key = k then v else s.inner.store.get k s.inner.readTs := by
  let h := s.handles.length
  let tx : Transaction :=
    { Transaction.new s.inner.readTs false with writes := AList.insert key v ∅ }
  -- the handle of the first round begins, and writes; its commit succeeds
  obtain ⟨s₂, hrun, hh₂, hinner⟩ := run_begin_write s key v
  have hresult : (s₂.inner.commitWrites h tx.readTs tx.writes.entries [] none).1 =
      .ok (s.inner.readTs + 1) := by
    have hun := undisturbed_of_run hb hq hrun (by simp [Event.Alone])
      (by simpa [allocations, Event.allocates] using Nat.lt_of_succ_lt hlt)
    rw [hun.commits tx _ _ hh₂, hinner]
    exact congrArg Except.ok (hb.tracks.nextTs.trans (wrap_of_lt hlt))
  generalize hp : s₂.inner.commitWrites h tx.readTs tx.writes.entries [] none = p at hresult
  obtain ⟨result, inner⟩ := p
  obtain rfl : result = _ := hresult
  refine ⟨_, Inner.retry_of_ok (hinner ▸ hp), fun k => ?_⟩
  -- its steps are those of the handle alone
  let a : Attempt := ⟨h, s.inner.readTs, s₂.inner.oracle.nextTs, tx.writes.entries, []⟩
  have hcommit := run_commit hh₂ (.refl _) List.nodup_nil rfl (List.cons_ne_nil _ _) none
    (show a = _ from rfl)
  rw [hp] at hcommit
  obtain ⟨halone, hone⟩ := alone_commit s₂.inner a (.ok (s.inner.readTs + 1))
  generalize hpost : .allocated a :: s₂.inner.commitEvents a none ++ [.reported a,
    .returned a.id (.ok (s.inner.readTs + 1))] = post at halone hone hcommit
  have hun : Undisturbed s h (.wrote h key v :: post) _ :=
    undisturbed_of_run hb hq (hrun.append hcommit)
      (List.forall_mem_cons.2 ⟨trivial, fun e he => (halone e he).1⟩)
      (by rw [← hone] at hlt; exact hlt)
  have hsession : session (.wrote h key v :: post) h = [.write key v] := by
    have hnil : post.filterMap (Event.op h) = [] :=
      List.filterMap_eq_nil_iff.2 fun e he => (halone e he).2 h
    have hop : Event.op h (.wrote h key v) = some (.write key v) := if_pos rfl
    rw [session, List.filterMap_cons_some hop, hnil]
  obtain ⟨-, hget⟩ := hun.returned (.ok (s.inner.readTs + 1)) (by simp [← hpost, a])
  have hbuffered : buffered [.write key v] k = if key = k then some v else none := rfl
  refine (hget k).trans ?_
  rw [hsession, hbuffered]
  split_ifs <;> rfl

/-- In every run of a database just opened, a transaction that begins when no commit is
    in flight, and is alone to commit, succeeds, and leaves what it wrote to the next
    snapshot; `put` and `delete` return from their first round. -/
theorem no_spurious_conflict (h₀ : s₀.Opened) (hrun : Run s₀ tr s) (hlive : ∀ L, .opened L ∉ tr)
    (hq : s.Quiescent) :
    (∀ h kind r tr' t, Run s (.began h kind r :: tr') t → (∀ e ∈ tr', e.Alone h) →
      s₀.inner.readTs + allocations (tr ++ tr') < 2 ^ 64 → Undisturbed s h tr' t) ∧
    (s₀.inner.readTs + allocations tr + 1 < 2 ^ 64 → ∀ key fuel,
      (∀ value, ∃ inner, s.inner.put s.handles.length key value none (fuel + 1) =
          some (.ok (s.inner.readTs + 1), inner) ∧
        ∀ k, inner.store.get k inner.readTs =
          if key = k then some value else s.inner.store.get k s.inner.readTs) ∧
      ∃ inner, s.inner.delete s.handles.length key none (fuel + 1) =
          some (.ok (s.inner.readTs + 1), inner) ∧
        ∀ k, inner.store.get k inner.readTs =
          if key = k then none else s.inner.store.get k s.inner.readTs) := by
  have hbounded : s₀.inner.readTs + allocations tr < 2 ^ 64 →
      s.inner.readTs = s₀.inner.readTs + allocations tr ∧ Bounded s.inner.readTs s := fun hlt => by
    have hb := h₀.bounded.of_run hrun hlt hlive
    have hread := hb.readTs_eq hq
    exact ⟨hread, hread ▸ hb⟩
  refine ⟨fun h kind r tr' t hrun' hown hlt => ?_, fun hlt key fuel => ?_⟩
  · rw [allocations_append, ← Nat.add_assoc] at hlt
    obtain ⟨hread, hb⟩ := hbounded (by omega)
    exact undisturbed_of_run hb hq hrun' hown (hread ▸ hlt)
  · obtain ⟨hread, hb⟩ := hbounded (by omega)
    exact ⟨fun value => retry_returns hb hq (hread ▸ hlt) key (some value) fuel,
      retry_returns hb hq (hread ▸ hlt) key none fuel⟩

/-! The counter is put after a conflict, at once, and by a transaction during which a
garbage collection runs. -/

def overwrite : Attempt := ⟨5, 3, 4, [⟨[120], some [9]⟩], []⟩

def overwriteRun : List Action :=
  [.begin .serializable, .get 5 [120], .collectGarbage, .put 5 [120] [9],
    .commit 5 [⟨[120], some [9]⟩] [], .prune 1, .tryCommit 5, .commitDone 5, .drop 5]

def overwriteTrace : List Event :=
  [.got 5 3 [120] (some [2]) false, .swept 3, .wrote 5 [120] (some [9]), .allocated overwrite,
    .pruned 1 0, .committed overwrite, .reported overwrite, .returned 5 (.ok 4)]

theorem exec_overwriteRun : (Trace.exec Sys.step .new counterRun).map (Prod.map id fun s =>
    (decide s.Quiescent, (Trace.exec Sys.step s overwriteRun).map Prod.fst)) =
      some (counterTrace, true, some (.began 5 .serializable 3 :: overwriteTrace)) := by
  decide +kernel

theorem no_spurious_conflict_counter : ∃ s inner t, Run .new counterTrace s ∧
    s.inner.put s.handles.length [120] [9] none 1 = some (.ok (s.inner.readTs + 1), inner) ∧
    inner.store.get [120] inner.readTs = some [9] ∧
    Run s (.began 5 .serializable 3 :: overwriteTrace) t ∧
    t.inner.store.get [120] t.inner.readTs = some [9] := by
  obtain ⟨s, hrun, hs⟩ := run_of_exec exec_overwriteRun
  obtain ⟨hq, hexec⟩ := Prod.mk.inj hs
  obtain ⟨⟨tr, t⟩, hexec, rfl : tr = _⟩ := Option.map_eq_some_iff.1 hexec
  have hrun' := Trace.run_of_exec hexec
  obtain ⟨hundisturbed, hput⟩ := no_spurious_conflict (.inl rfl) hrun (log_eq_none_of_run hrun).2
    (of_decide_eq_true hq)
  obtain ⟨inner, hput, hget⟩ := (hput (by decide) [120] 0).1 [9]
  have hun := hundisturbed 5 _ _ _ _ hrun' (by simp [overwriteTrace, overwrite, Event.Alone])
    (by decide)
  exact ⟨s, inner, t, hrun, hput, hget [120], hrun', (hun.returned (.ok 4) (by decide)).2 [120]⟩

end TxnDb
