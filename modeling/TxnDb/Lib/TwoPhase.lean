import Mathlib.Data.List.GetD
import Mathlib.Logic.Function.Basic
import Mathlib.Order.Nat
import TxnDb.Lib.Assoc
import TxnDb.Lib.Trace

/-!
# Two-phase locking

Calls that lock the cells they need, one after the other, access them one at a
time, and release them once they are done (`Interface.step`), along with
operations on one cell, done at once when nobody has locked it.

What a call does once it has its locks is a program (`Prog`), which only depends
on the cells it accesses (`Prog.Within.run_congr`), and may be executed at once
(`Prog.run`). In every run, each call might as well be executed at once when it
takes its last lock (`Interface.Linearizes`, see `TxnDb.Lib.TwoPhase.Linearize`).
-/

namespace TwoPhase

/-- What a call does: it accesses cells one after the other, updating each, and goes
    on according to what was in it; and returns a result. -/
inductive Prog (ι α ρ : Type*)
  | done (r : ρ)
  | access (i : ι) (f : α → α) (next : α → Prog ι α ρ)

variable {ι α ρ κ ο ω : Type*} {q : Prog ι α ρ} {held held' : List ι} {σ τ : ι → α} {i : ι}

/-! ## Programs -/

namespace Prog

/-- The program accesses the cells of `held` only. -/
def Within (held : List ι) : Prog ι α ρ → Prop
  | .done _ => True
  | .access i _ next => i ∈ held ∧ ∀ a, (next a).Within held

theorem Within.mono (h : q.Within held) (hsub : ∀ i ∈ held, i ∈ held') : q.Within held' := by
  induction q with
  | done => trivial
  | access i f next ih => exact ⟨hsub i h.1, fun a => ih a (h.2 a)⟩

variable [DecidableEq ι]

/-- Executing the program at once. -/
def run : Prog ι α ρ → (ι → α) → ρ × (ι → α)
  | .done r, σ => (r, σ)
  | .access i f next, σ => (next (σ i)).run (Function.update σ i (f (σ i)))

/-- What is executed depends on the cells accessed only. -/
theorem Within.run_congr (h : q.Within held) (hσ : ∀ i ∈ held, σ i = τ i) :
    (q.run σ).1 = (q.run τ).1 ∧ ∀ i ∈ held, (q.run σ).2 i = (q.run τ).2 i := by
  induction q generalizing σ τ with
  | done r => exact ⟨rfl, hσ⟩
  | access i f next ih =>
    rw [run, run, hσ i h.1]
    refine ih _ (h.2 _) fun j hj => ?_
    rw [Function.update_apply, Function.update_apply, hσ j hj]

/-- The other cells are left as they are. -/
theorem Within.run_of_notMem (h : q.Within held) (hi : i ∉ held) : (q.run σ).2 i = σ i := by
  induction q generalizing σ with
  | done r => rfl
  | access j f next ih =>
    rw [run, ih _ (h.2 _), Function.update_of_ne]
    rintro rfl
    exact hi h.1

end Prog

/-! ## The system -/

/-- What can be called: calls that lock some cells, and operations on one cell. -/
structure Interface (ι α ρ κ ο ω : Type*) where
  locks : κ → List ι
  prog : κ → Prog ι α ρ
  within : ∀ c, (prog c).Within (locks c)
  cell : ο → ι
  op : ο → α → ω × α

/-- A call in progress: the locks it has still to take, those it holds, and what is
    left of its program. -/
structure Proc (ι α ρ κ : Type*) where
  call : κ
  todo : List ι
  held : List ι
  prog : Prog ι α ρ

/-- The cells, and the calls that began, `none` once they have returned. -/
structure State (ι α ρ κ : Type*) where
  cells : ι → α
  procs : List (Option (Proc ι α ρ κ))

variable {I : Interface ι α ρ κ ο ω} {s s' : State ι α ρ κ} {p p' : ℕ} {x y : Proc ι α ρ κ}
  {c : κ} {r : ρ} {o : ο}

namespace State

/-- The call named `p`, if it is in progress. -/
def proc (s : State ι α ρ κ) (p : ℕ) : Option (Proc ι α ρ κ) := s.procs.getD p none

def set (s : State ι α ρ κ) (p : ℕ) (x : Option (Proc ι α ρ κ)) : State ι α ρ κ :=
  { s with procs := s.procs.set p x }

/-- Nobody has locked the cell. -/
def Free (s : State ι α ρ κ) (i : ι) : Prop := ∀ x ∈ s.procs, ∀ y ∈ x.toList, i ∉ y.held

instance [DecidableEq ι] (s : State ι α ρ κ) (i : ι) : Decidable (s.Free i) :=
  inferInstanceAs (Decidable (∀ x ∈ s.procs, ∀ y ∈ x.toList, i ∉ y.held))

/-- No call is between its last lock and its last access. -/
def Settled (s : State ι α ρ κ) : Prop :=
  ∀ p x, s.proc p = some x → x.todo = [] → ∃ r, x.prog = .done r

theorem lt_of_proc (h : s.proc p = some x) : p < s.procs.length := by
  by_contra hge
  rw [proc, List.getD_eq_default _ _ (not_lt.1 hge)] at h
  cases h

theorem proc_set (h : s.proc p = some x) (y : Option (Proc ι α ρ κ)) (p' : ℕ) :
    (s.set p y).proc p' = if p' = p then y else s.proc p' :=
  List.getD_set (lt_of_proc h) _ _ _

theorem proc_append (y : Option (Proc ι α ρ κ)) (p' : ℕ) :
    (State.mk s.cells (s.procs ++ [y])).proc p' =
      if p' = s.procs.length then y else s.proc p' :=
  List.getD_concat _ _ _ _

theorem Free.notMem (h : s.Free i) (hp : s.proc p = some x) : i ∉ x.held := by
  have hlt := lt_of_proc hp
  rw [proc, List.getD_eq_getElem _ _ hlt] at hp
  exact h _ (List.getElem_mem hlt) x (by rw [hp]; exact List.mem_singleton_self x)

end State

/-- From `s` to `s'`, the call `p` begins, or takes a lock, and is then as `x`. -/
structure Takes (I : Interface ι α ρ κ ο ω) (s s' : State ι α ρ κ) (p : ℕ)
    (x : Proc ι α ρ κ) : Prop where
  cells : s'.cells = s.cells
  proc : ∀ p', s'.proc p' = if p' = p then some x else s.proc p'
  lt : p < s'.procs.length
  length_le : s.procs.length ≤ s'.procs.length
  locking : s.procs.length ≤ p ∨ ∃ y, s.proc p = some y ∧ y.todo ≠ []
  free : ∀ i ∈ x.held, ∀ p' y, p' ≠ p → s.proc p' = some y → i ∉ y.held
  prog : x.prog = I.prog x.call
  locks : ∀ i ∈ I.locks x.call, i ∈ x.held ∨ i ∈ x.todo

namespace Takes

/-- The call did not have all its locks. -/
theorem ne_of_full (h : Takes I s s' p x) (hy : s.proc p' = some y) (htodo : y.todo = []) :
    p' ≠ p := by
  rintro rfl
  rcases h.locking with hle | ⟨y', hy', hne⟩
  · exact absurd (State.lt_of_proc hy) (not_lt.2 hle)
  · obtain rfl := Option.some.inj (hy.symm.trans hy')
    exact hne htodo

theorem proc_of_ne (h : Takes I s s' p x) (hne : p' ≠ p) : s'.proc p' = s.proc p' := by
  rw [h.proc, if_neg hne]

/-- The calls after the step are those before, and the one that took a lock. -/
theorem cases (h : Takes I s s' p x) (hy : s'.proc p' = some y) :
    (p' = p ∧ y = x) ∨ (p' ≠ p ∧ s.proc p' = some y) := by
  rw [h.proc] at hy
  split_ifs at hy with heq
  · exact .inl ⟨heq, (Option.some.inj hy).symm⟩
  · exact .inr ⟨heq, hy⟩

end Takes

inductive Action (ι κ ο : Type*)
  | start (c : κ)
  /-- The call takes its next lock. -/
  | acquire (p : ℕ)
  | access (p : ℕ)
  | release (p : ℕ) (i : ι)
  | finish (p : ℕ)
  | single (o : ο)

/-- What is observed; `last` if the call has all its locks then. -/
inductive Event (ι ρ κ ο ω : Type*)
  | started (p : ℕ) (c : κ) (last : Bool)
  | acquired (p : ℕ) (c : κ) (i : ι) (last : Bool)
  | accessed (p : ℕ) (i : ι)
  | released (p : ℕ) (i : ι)
  | returned (p : ℕ) (r : ρ)
  | single (o : ο) (out : ω)
  deriving DecidableEq

/-- What is executed at once: a call, with its result, or an operation, with what it
    returns. -/
inductive Atom (ρ κ ο ω : Type*)
  | call (p : ℕ) (c : κ) (r : ρ)
  | single (o : ο) (out : ω)

/-- Where a call takes its last lock, or an operation is done. -/
def Event.point : Event ι ρ κ ο ω → Option (ℕ × κ ⊕ ο × ω)
  | .started p c true | .acquired p c _ true => some (.inl (p, c))
  | .single o out => some (.inr (o, out))
  | _ => none

def Atom.point : Atom ρ κ ο ω → ℕ × κ ⊕ ο × ω
  | .call p c _ => .inl (p, c)
  | .single o out => .inr (o, out)

def Atom.name : Atom ρ κ ο ω → Option ℕ
  | .call p _ _ => some p
  | .single _ _ => none

variable [DecidableEq ι]

namespace Interface

variable (I)

/-- A step, lock by lock. -/
def step (s : State ι α ρ κ) : Action ι κ ο → Option (State ι α ρ κ × Event ι ρ κ ο ω)
  | .start c =>
    some (⟨s.cells, s.procs ++ [some ⟨c, I.locks c, [], I.prog c⟩]⟩,
      .started s.procs.length c (I.locks c).isEmpty)
  | .acquire p =>
    match s.proc p with
    | some ⟨c, i :: todo, held, prog⟩ =>
      if s.Free i then
        some (s.set p (some ⟨c, todo, i :: held, prog⟩), .acquired p c i todo.isEmpty)
      else none
    | _ => none
  | .access p =>
    match s.proc p with
    | some ⟨c, [], held, .access i f next⟩ =>
      some ({ s.set p (some ⟨c, [], held, next (s.cells i)⟩) with
        cells := Function.update s.cells i (f (s.cells i)) }, .accessed p i)
    | _ => none
  | .release p i =>
    match s.proc p with
    | some ⟨c, [], held, .done r⟩ =>
      if i ∈ held then
        some (s.set p (some ⟨c, [], held.filter (· ≠ i), .done r⟩), .released p i)
      else none
    | _ => none
  | .finish p =>
    match s.proc p with
    | some ⟨_, [], [], .done r⟩ => some (s.set p none, .returned p r)
    | _ => none
  | .single o =>
    if s.Free (I.cell o) then
      some ({ s with
        cells := Function.update s.cells (I.cell o) (I.op o (s.cells (I.cell o))).2 },
        .single o (I.op o (s.cells (I.cell o))).1)
    else none

/-- A step, each call being executed at once. -/
def atomic (σ : ι → α) : ℕ × κ ⊕ ο → Option ((ι → α) × Atom ρ κ ο ω)
  | .inl (p, c) => some (((I.prog c).run σ).2, .call p c ((I.prog c).run σ).1)
  | .inr o => some (Function.update σ (I.cell o) (I.op o (σ (I.cell o))).2,
      .single o (I.op o (σ (I.cell o))).1)

/-- The trace `L` of an execution at once, from `σ₀` to `σ`, is one of the calls and
    operations of the trace `tr`, in the order of their last locks, with their results. -/
structure Linearizes (σ₀ : ι → α) (tr : List (Event ι ρ κ ο ω)) (L : List (Atom ρ κ ο ω))
    (σ : ι → α) : Prop where
  run : Trace.Run I.atomic σ₀ L σ
  order : L.map Atom.point = tr.filterMap Event.point
  once : (L.filterMap Atom.name).Nodup
  started : ∀ p c r, .call p c r ∈ L → ∃ last, .started p c last ∈ tr
  returned : ∀ p r, .returned p r ∈ tr → ∃ c, .call p c r ∈ L

end Interface

/-! ## Steps -/

variable {e : Event ι ρ κ ο ω} {tr : List (Event ι ρ κ ο ω)} {L : List (Atom ρ κ ο ω)} {σ₀ : ι → α}

/-- What a step is, for each event it is observed as. -/
inductive Step (I : Interface ι α ρ κ ο ω) (s : State ι α ρ κ) :
    Event ι ρ κ ο ω → State ι α ρ κ → Prop
  | started (c : κ) :
    Step I s (.started s.procs.length c (I.locks c).isEmpty)
      ⟨s.cells, s.procs ++ [some ⟨c, I.locks c, [], I.prog c⟩]⟩
  | acquired {p : ℕ} {c : κ} {i : ι} {todo held : List ι} {prog : Prog ι α ρ}
      (hp : s.proc p = some ⟨c, i :: todo, held, prog⟩) (hfree : s.Free i) :
    Step I s (.acquired p c i todo.isEmpty) (s.set p (some ⟨c, todo, i :: held, prog⟩))
  | accessed {p : ℕ} {c : κ} {i : ι} {held : List ι} {f : α → α} {next : α → Prog ι α ρ}
      (hp : s.proc p = some ⟨c, [], held, .access i f next⟩) :
    Step I s (.accessed p i) { s.set p (some ⟨c, [], held, next (s.cells i)⟩) with
      cells := Function.update s.cells i (f (s.cells i)) }
  | released {p : ℕ} {c : κ} {i : ι} {held : List ι} {r : ρ}
      (hp : s.proc p = some ⟨c, [], held, .done r⟩) :
    Step I s (.released p i) (s.set p (some ⟨c, [], held.filter (· ≠ i), .done r⟩))
  | returned {p : ℕ} {c : κ} {r : ρ} (hp : s.proc p = some ⟨c, [], [], .done r⟩) :
    Step I s (.returned p r) (s.set p none)
  | single (o : ο) (hfree : s.Free (I.cell o)) :
    Step I s (.single o (I.op o (s.cells (I.cell o))).1) { s with
      cells := Function.update s.cells (I.cell o) (I.op o (s.cells (I.cell o))).2 }

theorem step_inv {a : Action ι κ ο} (h : I.step s a = some (s', e)) : Step I s e s' := by
  cases a with
  | start c =>
    obtain ⟨rfl, rfl⟩ := Prod.mk.inj (Option.some.inj h)
    exact .started c
  | acquire p =>
    simp only [Interface.step] at h
    split at h
    · next hp =>
      split_ifs at h with hfree
      obtain ⟨rfl, rfl⟩ := Prod.mk.inj (Option.some.inj h)
      exact .acquired hp hfree
    · cases h
  | access p =>
    simp only [Interface.step] at h
    split at h
    · next hp =>
      obtain ⟨rfl, rfl⟩ := Prod.mk.inj (Option.some.inj h)
      exact .accessed hp
    · cases h
  | release p i =>
    simp only [Interface.step] at h
    split at h
    · next hp =>
      split_ifs at h
      obtain ⟨rfl, rfl⟩ := Prod.mk.inj (Option.some.inj h)
      exact .released hp
    · cases h
  | finish p =>
    simp only [Interface.step] at h
    split at h
    · next hp =>
      obtain ⟨rfl, rfl⟩ := Prod.mk.inj (Option.some.inj h)
      exact .returned hp
    · cases h
  | single o =>
    simp only [Interface.step] at h
    split_ifs at h with hfree
    obtain ⟨rfl, rfl⟩ := Prod.mk.inj (Option.some.inj h)
    exact .single o hfree

end TwoPhase
