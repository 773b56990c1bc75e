import Mathlib.Order.Bounds.Basic
import TxnDb.Lib.Trace
import TxnDb.Oracle

/-!
# The oracle and its callers

An oracle with its callers (`Desk`), who may call it in any order, and end every
reader at most once; they may report any timestamp (`Desk.serve`), or only those they
were handed out, each at most once (`Desk.step`).
-/

namespace TxnDb

/-- An oracle, with what it has told its callers: the timestamps handed out, those
    reported as done, and where each reader reads, `none` once it has ended. -/
structure Desk where
  oracle : Oracle
  allocated : List ℕ
  reported : List ℕ
  readers : List (Option ℕ)

/-- A call of the oracle. -/
inductive Call
  | allocCommitTs
  | commitDone (ts : ℕ)
  | beginReader
  | endReader (h : ℕ)
  | lowWatermark

/-- What a call returns, with the reader it is for, named by its position. -/
inductive Answer
  | allocated (ts : ℕ)
  | reported (ts : ℕ)
  | began (h ts : ℕ)
  | ended (h ts : ℕ)
  | lowWatermark (ts : ℕ)

variable {o : Oracle} {d d' : Desk} {tr : List Answer} {a : Answer} {highest h r t : ℕ}

namespace Desk

/-- An oracle that was not called yet. -/
def new (o : Oracle) : Desk := ⟨o, [], [], []⟩

/-- What a call does, if it may be made; whatever is reported. -/
def serve (d : Desk) : Call → Option (Desk × Answer)
  | .allocCommitTs =>
    let (ts, oracle) := d.oracle.allocCommitTs
    some ({ d with oracle, allocated := d.allocated ++ [ts] }, .allocated ts)
  | .commitDone ts =>
    some ({ d with oracle := d.oracle.commitDone ts, reported := d.reported ++ [ts] },
      .reported ts)
  | .beginReader =>
    let (ts, oracle) := d.oracle.beginReader
    some ({ d with oracle, readers := d.readers ++ [some ts] }, .began d.readers.length ts)
  | .endReader h =>
    match d.readers[h]? with
    | some (some ts) =>
      some ({ d with oracle := d.oracle.endReader ts, readers := d.readers.set h none },
        .ended h ts)
    | _ => none
  | .lowWatermark => some (d, .lowWatermark d.oracle.lowWatermark)

/-- What a call does, if only timestamps handed out are reported, each at most once. -/
def step (d : Desk) : Call → Option (Desk × Answer)
  | .commitDone ts =>
    if ts ∈ d.allocated ∧ ts ∉ d.reported then d.serve (.commitDone ts) else none
  | call => d.serve call

/-- The timestamp was handed out, and not reported yet. -/
def InFlight (d : Desk) (t : ℕ) : Prop := t ∈ d.allocated ∧ t ∉ d.reported

/-- The number of readers alive at `r`. -/
def live (d : Desk) (r : ℕ) : ℕ := d.readers.count (some r)

/-- The last timestamp handed out, from `highest` on. -/
def issued (highest : ℕ) (d : Desk) : ℕ := highest + d.allocated.length

theorem live_concat : live { d with oracle := o, readers := d.readers ++ [some t] } r =
    d.live r + if r = t then 1 else 0 := by
  simp only [live, List.count_append, List.count_singleton, beq_iff_eq, Option.some.injEq,
    eq_comm (a := r)]

theorem live_set (hlt : h < d.readers.length) (hget : d.readers[h] = some t) :
    live { d with oracle := o, readers := d.readers.set h none } r =
      d.live r - if r = t then 1 else 0 := by
  simp only [live, List.count_set hlt, hget, beq_iff_eq, Option.some.injEq, eq_comm (a := r),
    reduceCtorEq, if_false, add_zero]

end Desk

/-- The runs of calls. -/
abbrev Calls (d : Desk) (tr : List Answer) (d' : Desk) : Prop := Trace.Run Desk.step d tr d'

/-- The oracle is a new one, or that of a database recovered up to `highest`. -/
def Oracle.Starts (o : Oracle) (highest : ℕ) : Prop :=
  (o = .new ∧ highest = 0) ∨ o = .recovered highest

/-- What a call has done, for each answer it gives. -/
theorem Desk.serve_inv (hserve : Trace.Step Desk.serve d a d') :
    (a = .allocated d.oracle.allocCommitTs.1 ∧ d' = { d with
        oracle := d.oracle.allocCommitTs.2
        allocated := d.allocated ++ [d.oracle.allocCommitTs.1] }) ∨
    (∃ t, a = .reported t ∧ d' = { d with
        oracle := d.oracle.commitDone t
        reported := d.reported ++ [t] }) ∨
    (a = .began d.readers.length d.oracle.readTs ∧ d' = { d with
        oracle := d.oracle.beginReader.2
        readers := d.readers ++ [some d.oracle.readTs] }) ∨
    (∃ h t, a = .ended h t ∧ d.readers[h]? = some (some t) ∧ d' = { d with
        oracle := d.oracle.endReader t
        readers := d.readers.set h none }) ∨
    (a = .lowWatermark d.oracle.lowWatermark ∧ d' = d) := by
  obtain ⟨call, h⟩ := hserve
  cases call with
  | allocCommitTs =>
    obtain ⟨rfl, rfl⟩ := Prod.mk.inj (Option.some.inj h)
    exact .inl ⟨rfl, rfl⟩
  | commitDone t =>
    obtain ⟨rfl, rfl⟩ := Prod.mk.inj (Option.some.inj h)
    exact .inr (.inl ⟨t, rfl, rfl⟩)
  | beginReader =>
    obtain ⟨rfl, rfl⟩ := Prod.mk.inj (Option.some.inj h)
    exact .inr (.inr (.inl ⟨rfl, rfl⟩))
  | endReader i =>
    simp only [Desk.serve] at h
    split at h
    · next t hi =>
      obtain ⟨rfl, rfl⟩ := Prod.mk.inj (Option.some.inj h)
      exact .inr (.inr (.inr (.inl ⟨i, t, rfl, hi, rfl⟩)))
    · cases h
  | lowWatermark =>
    obtain ⟨rfl, rfl⟩ := Prod.mk.inj (Option.some.inj h)
    exact .inr (.inr (.inr (.inr ⟨rfl, rfl⟩)))

/-- What is reported was in flight. -/
theorem Desk.step_inv (hstep : Trace.Step Desk.step d a d') :
    Trace.Step Desk.serve d a d' ∧ ∀ t, a = .reported t → d.InFlight t := by
  obtain ⟨call, h⟩ := hstep
  cases call with
  | commitDone t =>
    simp only [Desk.step] at h
    split_ifs at h with hflight
    refine ⟨⟨.commitDone t, h⟩, fun t' ht' => ?_⟩
    have heq : .reported t = a := (Prod.mk.inj (Option.some.inj h)).2
    obtain rfl := Answer.reported.inj (heq.trans ht')
    exact hflight
  | endReader i =>
    refine ⟨⟨.endReader i, h⟩, ?_⟩
    rintro t rfl
    simp only [Desk.step, Desk.serve] at h
    split at h <;> cases h
  | allocCommitTs =>
    refine ⟨⟨.allocCommitTs, h⟩, ?_⟩
    rintro t rfl
    cases h
  | beginReader =>
    refine ⟨⟨.beginReader, h⟩, ?_⟩
    rintro t rfl
    cases h
  | lowWatermark =>
    refine ⟨⟨.lowWatermark, h⟩, ?_⟩
    rintro t rfl
    cases h

end TxnDb
