import Mathlib.Algebra.BigOperators.Group.List.Basic
import Mathlib.Algebra.Ring.Nat
import Mathlib.Data.Finset.Dedup
import Mathlib.Data.Finset.Order
import TxnDb.Lib.Trace

/-!
# Locks taken in order

Processes take and release locks, each for reading or for writing, following
programs that are known in advance (`Proc`). A lock is shared by readers, and
exclusive to a writer; a process that takes a lock it holds is stuck.

If every process takes its locks in ascending order of some rank, and releases
what it took (`Ordered`), then no process takes a lock it holds
(`Proc.Ordered.not_holds`), and as long as one is not done, one can go on
(`exists_canStep`): the one that waits for a lock holding the highest one. This
is so even if a reader waits for the writers waiting for the lock.
-/

namespace LockOrder

variable {L : Type*}

/-- What a lock is taken for. -/
inductive Mode
  | read
  | write
  deriving DecidableEq

inductive Instr (L : Type*)
  | acquire (l : L) (m : Mode)
  | release (l : L)
  deriving DecidableEq

/-- A process: the locks it holds, and the rest of its program. -/
structure Proc (L : Type*) where
  held : List (L × Mode)
  rest : List (Instr L)
  deriving DecidableEq

/-- The process holds the lock. -/
def Proc.Holds (p : Proc L) (l : L) : Prop := ∃ m, (l, m) ∈ p.held

/-- The lock can be taken: nobody holds it, unless all are readers. -/
def Free (s : List (Proc L)) (l : L) (m : Mode) : Prop :=
  ∀ p ∈ s, ∀ h ∈ p.held, h.1 = l → h.2 = .read ∧ m = .read

instance [DecidableEq L] (s : List (Proc L)) (l : L) (m : Mode) : Decidable (Free s l m) :=
  inferInstanceAs (Decidable (∀ p ∈ s, ∀ h ∈ p.held, h.1 = l → h.2 = .read ∧ m = .read))

/-- The next instruction of the process `i`, if it can be executed. -/
def step [DecidableEq L] (s : List (Proc L)) (i : ℕ) : Option (List (Proc L) × Instr L) :=
  match s[i]? with
  | some ⟨held, .acquire l m :: rest⟩ =>
    if Free s l m then some (s.set i ⟨(l, m) :: held, rest⟩, .acquire l m) else none
  | some ⟨held, .release l :: rest⟩ =>
    some (s.set i ⟨held.filter (·.1 ≠ l), rest⟩, .release l)
  | _ => none

/-- The process can go on, even if a reader lets the writers that wait go first. -/
def Proc.CanStep (s : List (Proc L)) (p : Proc L) : Prop :=
  match p.rest with
  | [] => False
  | .release _ :: _ => True
  | .acquire l .write :: _ => Free s l .write
  | .acquire l .read :: _ => Free s l .read ∧ ∀ q ∈ s, q.rest.head? ≠ some (.acquire l .write)

variable {rank : L → ℕ} {s s' : List (Proc L)} {p q : Proc L} {l : L} {m : Mode} {i : ℕ}
  {held : List L} {instrs instrs' : List (Instr L)}

/-! ## The discipline -/

/-- Locks are taken in ascending order, by one who holds `held`, and all released. -/
def Disciplined [DecidableEq L] (rank : L → ℕ) : List L → List (Instr L) → Prop
  | held, [] => held = []
  | held, .acquire l _ :: rest => (∀ h ∈ held, rank h < rank l) ∧ Disciplined rank (l :: held) rest
  | held, .release l :: rest => Disciplined rank (held.filter (· ≠ l)) rest

/-- The process takes its locks in order from where it is. -/
def Proc.Ordered [DecidableEq L] (rank : L → ℕ) (p : Proc L) : Prop :=
  Disciplined rank (p.held.map (·.1)) p.rest

section

variable [DecidableEq L]

/-- Programs that release what they took can be run one after the other. -/
theorem Disciplined.append (h : Disciplined rank held instrs) (h' : Disciplined rank [] instrs') :
    Disciplined rank held (instrs ++ instrs') := by
  induction instrs generalizing held with
  | nil =>
    obtain rfl : held = [] := h
    exact h'
  | cons instr instrs ih =>
    cases instr with
    | acquire l m => exact ⟨h.1, ih h.2⟩
    | release l => exact @ih (held.filter (· ≠ l)) h

theorem Disciplined.flatMap {α : Type*} {f : α → List (Instr L)} {as : List α}
    (h : ∀ a ∈ as, Disciplined rank [] (f a)) : Disciplined rank [] (as.flatMap f) := by
  induction as with
  | nil => rfl
  | cons a as ih =>
    rw [List.flatMap_cons]
    exact (h a List.mem_cons_self).append (ih fun b hb => h b (List.mem_cons_of_mem _ hb))

/-- Taking one lock, and releasing it. -/
theorem disciplined_single (l : L) (m : Mode) :
    Disciplined rank [] [.acquire l m, .release l] := by
  refine ⟨nofun, ?_⟩
  change [l].filter (· ≠ l) = []
  simp

theorem disciplined_release {ls : List L} (h : ∀ l ∈ held, l ∈ ls) :
    Disciplined rank held (ls.map .release) := by
  induction ls generalizing held with
  | nil => exact List.eq_nil_iff_forall_not_mem.2 fun l hl => List.not_mem_nil (h l hl)
  | cons l ls ih =>
    refine ih fun l' hl' => ?_
    obtain ⟨hl', hne⟩ := List.mem_filter.1 hl'
    exact (List.mem_cons.1 (h l' hl')).resolve_left (of_decide_eq_true hne)

/-- Taking some locks in ascending order, and releasing them all. -/
theorem disciplined_all {ls : List L} (hls : ls.Pairwise fun l l' => rank l < rank l') (m : Mode) :
    Disciplined rank [] (ls.map (.acquire · m) ++ ls.map .release) := by
  -- the first of the locks are held, and the others to be taken
  suffices h : ∀ ls' held : List L, (∀ h ∈ held, h ∈ ls) → (∀ l ∈ ls', l ∈ ls) →
      (∀ h ∈ held, ∀ l ∈ ls', rank h < rank l) → ls'.Pairwise (fun l l' => rank l < rank l') →
        Disciplined rank held (ls'.map (.acquire · m) ++ ls.map .release) from
    h ls [] nofun (fun _ hl => hl) nofun hls
  intro ls'
  induction ls' with
  | nil => exact fun held hheld _ _ _ => disciplined_release hheld
  | cons l ls' ih =>
    intro held hheld hsub hlt hls'
    obtain ⟨hl, hls'⟩ := List.pairwise_cons.1 hls'
    refine ⟨fun h hh => hlt h hh l List.mem_cons_self, ih _ ?_ ?_ ?_ hls'⟩
    · exact List.forall_mem_cons.2 ⟨hsub l List.mem_cons_self, hheld⟩
    · exact fun l' hl' => hsub l' (List.mem_cons_of_mem _ hl')
    · exact List.forall_mem_cons.2 ⟨hl, fun h hh l' hl' => hlt h hh l' (List.mem_cons_of_mem _ hl')⟩

namespace Proc.Ordered

/-- The next lock is above those held, so that no process takes a lock it holds. -/
theorem rank_lt (h : p.Ordered rank) (hnext : p.rest.head? = some (.acquire l m)) {l' : L}
    (hl' : p.Holds l') : rank l' < rank l := by
  obtain ⟨rest, hrest⟩ := List.head?_eq_some_iff.1 hnext
  rw [Proc.Ordered, hrest] at h
  obtain ⟨m', hm'⟩ := hl'
  exact h.1 l' (List.mem_map.2 ⟨(l', m'), hm', rfl⟩)

theorem not_holds (h : p.Ordered rank) (hnext : p.rest.head? = some (.acquire l m)) : ¬p.Holds l :=
  fun hl => lt_irrefl _ (h.rank_lt hnext hl)

/-- One who is done holds nothing. -/
theorem held_eq_nil (h : p.Ordered rank) (hrest : p.rest = []) : p.held = [] := by
  rw [Proc.Ordered, hrest] at h
  exact List.map_eq_nil_iff.1 h

end Proc.Ordered

/-- Every step keeps the discipline. -/
theorem ordered_step (h : ∀ p ∈ s, p.Ordered rank) {instr : Instr L}
    (hstep : step s i = some (s', instr)) : ∀ p ∈ s', p.Ordered rank := by
  intro p hp
  rw [step] at hstep
  split at hstep
  · next held l m rest hi =>
    split_ifs at hstep
    obtain ⟨rfl, -⟩ := Prod.mk.inj (Option.some.inj hstep)
    rcases List.mem_or_eq_of_mem_set hp with hp | rfl
    · exact h p hp
    · exact (h _ (List.mem_of_getElem? hi)).2
  · next held l rest hi =>
    obtain ⟨rfl, -⟩ := Prod.mk.inj (Option.some.inj hstep)
    rcases List.mem_or_eq_of_mem_set hp with hp | rfl
    · exact h p hp
    · have hord := h _ (List.mem_of_getElem? hi)
      have hfilter : (held.map (·.1)).filter (· ≠ l) = (held.filter (·.1 ≠ l)).map (·.1) :=
        List.filter_map
      rw [Proc.Ordered, Disciplined, hfilter] at hord
      exact hord
  · cases hstep

/-! ## Progress -/

/-- What can go on is a step. -/
theorem Proc.CanStep.step (hc : p.CanStep s) (hi : s[i]? = some p) :
    ∃ s' instr, step s i = some (s', instr) := by
  obtain ⟨held, rest⟩ := p
  match rest with
  | [] => exact absurd hc id
  | .release l :: rest => exact ⟨_, _, by rw [LockOrder.step, hi]⟩
  | .acquire l .write :: rest =>
    exact ⟨_, _, by rw [LockOrder.step, hi]; exact if_pos hc⟩
  | .acquire l .read :: rest =>
    exact ⟨_, _, by rw [LockOrder.step, hi]; exact if_pos hc.1⟩

omit [DecidableEq L] in
theorem exists_holds_of_not_free (h : ¬Free s l m) : ∃ q ∈ s, q.Holds l := by
  simp only [Free, not_forall] at h
  obtain ⟨q, hq, ⟨l', m'⟩, hheld, rfl, -⟩ := h
  exact ⟨q, hq, m', hheld⟩

/-- If nobody can go on, one who is not done waits for a lock that is held. -/
theorem exists_holds (hstuck : ∀ p ∈ s, ¬p.CanStep s) (hp : p ∈ s) (hrest : p.rest ≠ []) :
    ∃ l m, p.rest.head? = some (.acquire l m) ∧ ∃ q ∈ s, q.Holds l := by
  have hnot := hstuck p hp
  obtain ⟨held, rest⟩ := p
  match rest with
  | [] => exact absurd rfl hrest
  | .release l :: rest => exact absurd trivial hnot
  | .acquire l .write :: rest => exact ⟨l, .write, rfl, exists_holds_of_not_free hnot⟩
  | .acquire l .read :: rest =>
    refine ⟨l, .read, rfl, ?_⟩
    by_cases hfree : Free s l .read
    · -- a writer waits, and the lock is not free for it
      obtain ⟨q, hq, hw⟩ : ∃ q ∈ s, q.rest.head? = some (.acquire l .write) := by
        by_contra hno
        exact hnot ⟨hfree, fun q hq hw => hno ⟨q, hq, hw⟩⟩
      have hnotq := hstuck q hq
      obtain ⟨rest', hrest'⟩ := List.head?_eq_some_iff.1 hw
      rw [Proc.CanStep, hrest'] at hnotq
      exact exists_holds_of_not_free hnotq
    · exact exists_holds_of_not_free hfree

/-- As long as a process is not done, one can go on. -/
theorem exists_canStep (h : ∀ p ∈ s, p.Ordered rank) (hrest : ∃ p ∈ s, p.rest ≠ []) :
    ∃ p ∈ s, p.CanStep s := by
  by_contra hno
  have hstuck : ∀ p ∈ s, ¬p.CanStep s := fun p hp hc => hno ⟨p, hp, hc⟩
  -- else there are held locks of any rank
  have hany : ∀ n, ∃ p ∈ s, ∃ l, p.Holds l ∧ n ≤ rank l := by
    intro n
    induction n with
    | zero =>
      obtain ⟨p, hp, hne⟩ := hrest
      obtain ⟨l, m, -, q, hq, hl⟩ := exists_holds hstuck hp hne
      exact ⟨q, hq, l, hl, Nat.zero_le _⟩
    | succ n ih =>
      obtain ⟨p, hp, l, hl, hle⟩ := ih
      have hne : p.rest ≠ [] := fun hdone => by
        obtain ⟨m, hm⟩ := hl
        rw [(h p hp).held_eq_nil hdone] at hm
        exact List.not_mem_nil hm
      obtain ⟨l', m, hnext, q, hq, hl'⟩ := exists_holds hstuck hp hne
      exact ⟨q, hq, l', hl', hle.trans_lt ((h p hp).rank_lt hnext hl)⟩
  obtain ⟨B, hB⟩ := (s.flatMap fun p => p.held.map fun h => rank h.1).toFinset.exists_le
  obtain ⟨p, hp, l, ⟨m, hm⟩, hle⟩ := hany (B + 1)
  refine absurd (hB (rank l) (List.mem_toFinset.2 (List.mem_flatMap.2 ⟨p, hp, ?_⟩)))
    (not_le.2 hle)
  exact List.mem_map.2 ⟨(l, m), hm, rfl⟩

/-- What is left to do. -/
def remaining (s : List (Proc L)) : ℕ := (s.map fun p => p.rest.length).sum

theorem remaining_step {instr : Instr L} (hstep : step s i = some (s', instr)) :
    remaining s' < remaining s := by
  have hset : ∀ {p p' : Proc L}, s[i]? = some p → p'.rest.length < p.rest.length →
      remaining (s.set i p') < remaining s := fun {p p'} hi hlt => by
    obtain ⟨hlen, rfl⟩ := List.getElem?_eq_some_iff.1 hi
    rw [remaining, remaining, List.map_set]
    conv_rhs => rw [← @List.set_getElem_self _ (s.map _) i (by simpa using hlen)]
    rw [List.sum_set, List.sum_set]
    simp [hlen, hlt]
  rw [step] at hstep
  split at hstep
  · next hi =>
    split_ifs at hstep
    obtain ⟨rfl, -⟩ := Prod.mk.inj (Option.some.inj hstep)
    exact hset hi (Nat.lt_succ_self _)
  · next hi =>
    obtain ⟨rfl, -⟩ := Prod.mk.inj (Option.some.inj hstep)
    exact hset hi (Nat.lt_succ_self _)
  · cases hstep

/-- From anywhere, all can be done. -/
theorem exists_run (h : ∀ p ∈ s, p.Ordered rank) :
    ∃ tr t, Trace.Run step s tr t ∧ ∀ p ∈ t, p.rest = [] := by
  generalize hn : remaining s = n
  induction n using Nat.strong_induction_on generalizing s with
  | _ n ih =>
    by_cases hrest : ∃ p ∈ s, p.rest ≠ []
    · obtain ⟨p, hp, hc⟩ := exists_canStep h hrest
      obtain ⟨i, hi⟩ := List.mem_iff_getElem?.1 hp
      obtain ⟨s', instr, hstep⟩ := hc.step hi
      obtain ⟨tr, t, hrun, hdone⟩ := ih _ (hn ▸ remaining_step hstep) (ordered_step h hstep) rfl
      exact ⟨_, t, (Trace.Run.single ⟨i, hstep⟩).append hrun, hdone⟩
    · exact ⟨[], s, .nil, fun p hp => not_not.1 fun hne => hrest ⟨p, hp, hne⟩⟩

end

end LockOrder
