import Mathlib.Logic.Function.Basic
import TxnDb.Lib.Atomic
import TxnDb.Oracle

/-!
# The oracle, step by step

The calls of the oracle run concurrently: each loads, stores and increments the
atomics `next_ts` and `read_ts` one at a time, and reads and changes what is
under the locks of `pending` and `readers` while it holds them
(`Oracle.Machine.step`). Begin and snapshot load the watermark without the lock
under which `commit_done` moves it.

Every access is seen by those that follow it, by whatever call: the orderings
of the atomics are not told apart.
-/

namespace TxnDb.Oracle

/-- The calls of the oracle. -/
inductive Op
  | readTs
  | allocCommitTs
  | beginReader
  | endReader (ts : ℕ)
  | lowWatermark
  | commitDone (ts : ℕ)
  deriving DecidableEq

/-- What a call answers, and what it does, when it is made at once. -/
def apply (o : Oracle) : Op → Option ℕ × Oracle
  | .readTs => (some o.readTs, o)
  | .allocCommitTs => (some o.allocCommitTs.1, o.allocCommitTs.2)
  | .beginReader => (some o.beginReader.1, o.beginReader.2)
  | .endReader ts => (none, o.endReader ts)
  | .lowWatermark => (some o.lowWatermark, o)
  | .commitDone ts => (none, o.commitDone ts)

/-- The locks of the oracle. -/
inductive Mutex
  | pending
  | readers
  deriving DecidableEq

/-- What a call accesses next. -/
inductive Access
  /-- `read_ts` loads the watermark. -/
  | loadReadTs
  /-- `alloc_commit_ts` takes the next timestamp. -/
  | fetchAdd
  /-- `begin_reader` loads the watermark. -/
  | loadBegin
  /-- `begin_reader` counts a reader at `ts`. -/
  | register (ts : ℕ)
  /-- `end_reader` counts a reader at `ts` no more. -/
  | decrement (ts : ℕ)
  /-- `end_reader` was the last one at `ts`. -/
  | remove (ts : ℕ)
  /-- `low_watermark` looks at the first reader. -/
  | first
  /-- `low_watermark` finds no reader, and loads the watermark. -/
  | loadLow
  /-- `commit_done` compares `ts` with the watermark. -/
  | compare (ts : ℕ)
  /-- `commit_done` looks for `next` among the timestamps ahead. -/
  | advance (ts next : ℕ)
  /-- `commit_done` stores the watermark. -/
  | publish (ts : ℕ)
  deriving DecidableEq

/-- Where a call stands. -/
inductive Pc
  | lock (l : Mutex) (next : Access)
  | access (a : Access)
  /-- It is about to drop the guard of `l`. -/
  | unlock (l : Mutex) (ans : Option ℕ)
  | ret (ans : Option ℕ)
  deriving DecidableEq

/-- Where a call starts. -/
def Op.start : Op → Pc
  | .readTs => .access .loadReadTs
  | .allocCommitTs => .access .fetchAdd
  | .beginReader => .lock .readers .loadBegin
  | .endReader ts => .lock .readers (.decrement ts)
  | .lowWatermark => .lock .readers .first
  | .commitDone ts => .lock .pending (.compare ts)

/-- What an access does, and where the call stands then. -/
def Access.exec (o : Oracle) : Access → Oracle × Pc
  | .loadReadTs => (o, .ret (some o.readTs))
  | .fetchAdd => ({ o with nextTs := wrap (o.nextTs + 1) }, .ret (some o.nextTs))
  | .loadBegin => (o, .access (.register o.readTs))
  | .register ts =>
    ({ o with readers := o.readers.insert ts ((o.readers.lookup ts).getD 0 + 1) },
      .unlock .readers (some ts))
  | .decrement ts =>
    match o.readers.lookup ts with
    | some count =>
      ({ o with readers := o.readers.insert ts (count - 1) },
        if count - 1 = 0 then .access (.remove ts) else .unlock .readers none)
    | none => (o, .unlock .readers none)
  | .remove ts => ({ o with readers := o.readers.erase ts }, .unlock .readers none)
  | .first =>
    match o.readers.keys.min? with
    | some oldest => (o, .unlock .readers (some oldest))
    | none => (o, .access .loadLow)
  | .loadLow => (o, .unlock .readers (some o.readTs))
  | .compare ts =>
    if ts = wrap (o.pending.doneUpto + 1) then
      ({ o with pending := { o.pending with doneUpto := ts } },
        .access (.advance ts (wrap (ts + 1))))
    else
      ({ o with pending := { o.pending with ahead := insert ts o.pending.ahead } },
        .unlock .pending none)
  | .advance ts next =>
    if next ∈ o.pending.ahead then
      ({ o with pending := ⟨next, o.pending.ahead.erase next⟩ },
        .access (.advance ts (wrap (next + 1))))
    else (o, .access (.publish ts))
  | .publish _ => ({ o with readTs := o.pending.doneUpto }, .unlock .pending none)

/-- The lock under which an access is made. The atomics are accessed under any, or none. -/
def Access.guard : Access → Option Mutex
  | .loadReadTs | .fetchAdd => none
  | .loadBegin | .register _ | .decrement _ | .remove _ | .first | .loadLow => some .readers
  | .compare _ | .advance .. | .publish _ => some .pending

/-- The lock that a call holds. -/
def Pc.holds : Pc → Option Mutex
  | .lock .. | .ret _ => none
  | .access a => a.guard
  | .unlock l _ => some l

/-- The oracle, the call that holds each lock, and where those in progress stand. -/
structure Machine where
  oracle : Oracle
  holder : Mutex → Option ℕ
  calls : List (Option Pc)

namespace Machine

inductive Action
  | start (op : Op)
  | go (p : ℕ)

/-- Where the call named `p` stands, if it is in progress. -/
def call (s : Machine) (p : ℕ) : Option Pc := s.calls.getD p none

def set (s : Machine) (p : ℕ) (x : Option Pc) : Machine := { s with calls := s.calls.set p x }

/-- The steps of concurrent calls. -/
def step (s : Machine) : Action → Option (Machine × Atomic.Event Op (Option ℕ))
  | .start op => some ({ s with calls := s.calls ++ [some op.start] }, .started s.calls.length op)
  | .go p =>
    match s.call p with
    | some (.lock l next) =>
      if s.holder l = none then
        some ({ s with holder := Function.update s.holder l (some p) }.set p (some (.access next)),
          .ran)
      else none
    | some (.access a) =>
      let (oracle, pc) := a.exec s.oracle
      some ({ s with oracle }.set p (some pc), .ran)
    | some (.unlock l ans) =>
      some ({ s with holder := Function.update s.holder l none }.set p (some (.ret ans)), .ran)
    | some (.ret ans) => some (s.set p none, .returned p ans)
    | none => none

/-- Nobody calls the oracle. -/
def new (o : Oracle) : Machine := ⟨o, fun _ => none, []⟩

/-- The runs of concurrent calls of the oracle `o`. -/
abbrev Run (o : Oracle) := Trace.Run step (new o)

end Machine

variable {s s' : Machine} {e : Atomic.Event Op (Option ℕ)} {tr : List (Atomic.Event Op (Option ℕ))}
  {p q : ℕ} {pc : Pc} {a : Access} {l : Mutex} {o x : Oracle}

/-! ## Steps -/

namespace Machine

theorem lt_of_call (h : s.call p = some pc) : p < s.calls.length := by
  by_contra hge
  rw [call, List.getD_eq_default _ _ (not_lt.1 hge)] at h
  cases h

theorem call_set (h : s.call p = some pc) (o : Oracle) (holder : Mutex → Option ℕ)
    (y : Option Pc) (q : ℕ) :
    (Machine.mk o holder (s.calls.set p y)).call q = if q = p then y else s.call q :=
  List.getD_set (lt_of_call h) _ _ _

theorem call_append (y : Option Pc) (q : ℕ) :
    (Machine.mk s.oracle s.holder (s.calls ++ [y])).call q =
      if q = s.calls.length then y else s.call q :=
  List.getD_concat _ _ _ _

/-- What a step is, for each event it is observed as. -/
inductive Step (s : Machine) : Atomic.Event Op (Option ℕ) → Machine → Prop
  | started (op : Op) :
    Step s (.started s.calls.length op) { s with calls := s.calls ++ [some op.start] }
  | locked {p : ℕ} {l : Mutex} {next : Access} (hp : s.call p = some (.lock l next))
      (hfree : s.holder l = none) :
    Step s .ran ⟨s.oracle, Function.update s.holder l (some p),
      s.calls.set p (some (.access next))⟩
  | accessed {p : ℕ} {a : Access} (hp : s.call p = some (.access a)) :
    Step s .ran ⟨(a.exec s.oracle).1, s.holder, s.calls.set p (some (a.exec s.oracle).2)⟩
  | unlocked {p : ℕ} {l : Mutex} {ans : Option ℕ} (hp : s.call p = some (.unlock l ans)) :
    Step s .ran ⟨s.oracle, Function.update s.holder l none, s.calls.set p (some (.ret ans))⟩
  | returned {p : ℕ} {ans : Option ℕ} (hp : s.call p = some (.ret ans)) :
    Step s (.returned p ans) ⟨s.oracle, s.holder, s.calls.set p none⟩

theorem step_inv {act : Action} (h : s.step act = some (s', e)) : Step s e s' := by
  cases act with
  | start op =>
    obtain ⟨rfl, rfl⟩ := Prod.mk.inj (Option.some.inj h)
    exact .started op
  | go p =>
    simp only [step] at h
    split at h
    · next l next hp =>
      split_ifs at h with hfree
      obtain ⟨rfl, rfl⟩ := Prod.mk.inj (Option.some.inj h)
      exact .locked hp hfree
    · next a hp =>
      obtain ⟨rfl, rfl⟩ := Prod.mk.inj (Option.some.inj h)
      exact .accessed hp
    · next l ans hp =>
      obtain ⟨rfl, rfl⟩ := Prod.mk.inj (Option.some.inj h)
      exact .unlocked hp
    · next ans hp =>
      obtain ⟨rfl, rfl⟩ := Prod.mk.inj (Option.some.inj h)
      exact .returned hp
    · cases h

/-- A step of a call that goes on is not its start. -/
theorem isStarted_go (h : s.step (.go p) = some (s', e)) : e.isStarted = false := by
  simp only [step] at h
  split at h
  · split_ifs at h
    obtain ⟨-, rfl⟩ := Prod.mk.inj (Option.some.inj h)
    rfl
  · cases h
    rfl
  · cases h
    rfl
  · cases h
    rfl
  · cases h

/-- A call that stands at `pc` can go on, unless it waits for a lock that is held. -/
theorem exists_go (hp : s.call p = some pc)
    (hfree : ∀ l next, pc = .lock l next → s.holder l = none) :
    ∃ s' e, s.step (.go p) = some (s', e) := by
  cases pc with
  | lock l next => exact ⟨_, _, by rw [step, hp]; exact if_pos (hfree l next rfl)⟩
  | access a => exact ⟨_, _, by rw [step, hp]⟩
  | unlock l ans => exact ⟨_, _, by rw [step, hp]⟩
  | ret ans => exact ⟨_, _, by rw [step, hp]⟩

end Machine

end TxnDb.Oracle
