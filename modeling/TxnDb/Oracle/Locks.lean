import TxnDb.Oracle.Steps

/-!
# The locks of the oracle

A lock is held by the call that stands where it holds it (`Oracle.Machine.Locked`): an access is
made under one lock, which the call holds after it. So a call that waits for a lock waits for one
that can go on (`Oracle.Machine.Locked.exists_go`).
-/

namespace TxnDb.Oracle

variable {s s' : Machine} {e : Atomic.Event Op (Option ℕ)} {tr : List (Atomic.Event Op (Option ℕ))}
  {p q : ℕ} {pc : Pc} {a : Access} {l : Mutex} {o x : Oracle}

namespace Access

/-- An access is made under one lock, which the call holds after it. -/
theorem holds_exec : (a.exec o).2.holds = a.guard := by
  cases a <;> rw [exec]
  case decrement =>
    split
    · split_ifs <;> rfl
    · rfl
  case first => split <;> rfl
  case compare | advance => split_ifs <;> rfl
  all_goals rfl

theorem exec_ne_lock {next : Access} : (a.exec o).2 ≠ .lock l next := by
  cases a <;> rw [exec]
  case decrement =>
    split
    · split_ifs <;> nofun
    · nofun
  case first => split <;> nofun
  case compare | advance => split_ifs <;> nofun
  all_goals nofun

end Access

namespace Machine

/-- The locks are held by the calls that stand where they hold them, and asked for by those
    that start. -/
structure Locked (s : Machine) : Prop where
  holds : ∀ p pc l, s.call p = some pc → pc.holds = some l → s.holder l = some p
  held : ∀ l p, s.holder l = some p → ∃ pc, s.call p = some pc ∧ pc.holds = some l
  starts : ∀ p l a, s.call p = some (.lock l a) → ∃ op : Op, op.start = .lock l a

variable {holder : Mutex → Option ℕ} {y : Option Pc}

/-- The call `p`, which stands at `pc`, holds no other lock than `pc` does. -/
theorem Locked.holder_iff (h : s.Locked) (hp : s.call p = some pc) :
    s.holder l = some p ↔ pc.holds = some l := by
  refine ⟨fun hl => ?_, h.holds p pc l hp⟩
  obtain ⟨pc', hp', hl'⟩ := h.held l p hl
  obtain rfl := Option.some.inj (hp.symm.trans hp')
  exact hl'

/-- A call goes on: it holds the locks of where it stands, and the others are held as before. -/
theorem Locked.set (h : s.Locked) (hp : s.call p = some pc)
    (hself : ∀ l, holder l = some p ↔ ∃ pc', y = some pc' ∧ pc'.holds = some l)
    (hother : ∀ l q, q ≠ p → (holder l = some q ↔ s.holder l = some q))
    (hstart : ∀ l a, y ≠ some (.lock l a)) : (Machine.mk o holder (s.calls.set p y)).Locked where
  holds q pc' l hq hl := by
    rw [call_set hp] at hq
    split_ifs at hq with heq
    · exact heq ▸ (hself l).2 ⟨pc', hq, hl⟩
    · exact (hother l q heq).2 (h.holds q pc' l hq hl)
  held l q hl := by
    rw [call_set hp]
    split_ifs with heq
    · exact (hself l).1 (heq ▸ hl)
    · exact h.held l q ((hother l q heq).1 hl)
  starts q l a hq := by
    rw [call_set hp] at hq
    split_ifs at hq with heq
    · exact absurd hq (hstart l a)
    · exact h.starts q l a hq

theorem Locked.start (h : s.Locked) (op : Op) :
    (Machine.mk s.oracle s.holder (s.calls ++ [some op.start])).Locked where
  holds q pc l hq hl := by
    rw [call_append] at hq
    split_ifs at hq with heq
    · cases hq
      cases op <;> cases hl
    · exact h.holds q pc l hq hl
  held l q hl := by
    obtain ⟨pc, hq, hpc⟩ := h.held l q hl
    rw [call_append, if_neg (lt_of_call hq).ne]
    exact ⟨pc, hq, hpc⟩
  starts q l a hq := by
    rw [call_append] at hq
    split_ifs at hq with heq
    · exact ⟨op, Option.some.inj hq⟩
    · exact h.starts q l a hq

/-- Every step keeps the locks in order. -/
theorem Locked.step (h : s.Locked) (hstep : Step s e s') : s'.Locked := by
  cases hstep with
  | started op => exact h.start op
  | @locked p l next hp hfree =>
    have hnone : ∀ l', s.holder l' ≠ some p := fun l' hl => nomatch (h.holder_iff hp).1 hl
    refine h.set hp (fun l' => ?_) (fun l' q hq => ?_) nofun
    · obtain ⟨op, hop⟩ := h.starts p l next hp
      have hguard : next.guard = some l := by cases op <;> cases hop <;> rfl
      rw [Function.update_apply]
      split_ifs with heq
      · subst heq
        exact iff_of_true rfl ⟨_, rfl, hguard⟩
      · refine iff_of_false (hnone l') ?_
        rintro ⟨pc, hpc, hl⟩
        cases hpc
        exact heq (Option.some.inj (hl.symm.trans hguard))
    · rw [Function.update_apply]
      split_ifs with heq
      · subst heq
        rw [hfree]
        exact iff_of_false (fun h => hq (Option.some.inj h).symm) nofun
      · exact Iff.rfl
  | @accessed p a hp =>
    refine h.set hp (fun l => ?_) (fun _ _ _ => Iff.rfl) fun l a' h' =>
      Access.exec_ne_lock (Option.some.inj h')
    rw [h.holder_iff hp]
    refine ⟨fun hl => ⟨_, rfl, Access.holds_exec.trans hl⟩, ?_⟩
    rintro ⟨pc, hpc, hl⟩
    cases hpc
    exact Access.holds_exec.symm.trans hl
  | @unlocked p l ans hp =>
    refine h.set hp (fun l' => ?_) (fun l' q hq => ?_) nofun
    · refine iff_of_false ?_ ?_
      · rw [Function.update_apply]
        split_ifs with heq
        · nofun
        · exact fun hl => heq (Option.some.inj ((h.holder_iff hp).1 hl)).symm
      · rintro ⟨pc, hpc, hl⟩
        cases hpc
        cases hl
    · rw [Function.update_apply]
      split_ifs with heq
      · subst heq
        rw [(h.holder_iff hp).2 rfl]
        exact iff_of_false nofun fun h => hq (Option.some.inj h).symm
      · exact Iff.rfl
  | @returned p ans hp =>
    refine h.set hp (fun l' => iff_of_false (fun hl => nomatch (h.holder_iff hp).1 hl) nofun)
      (fun _ _ _ => Iff.rfl) nofun

/-- A call that waits for a lock waits for one that can go on. -/
theorem Locked.exists_go (h : s.Locked) (hp : s.call p = some pc) :
    ∃ p s' e, s.step (.go p) = some (s', e) := by
  by_cases hwait : ∃ l next q, pc = .lock l next ∧ s.holder l = some q
  · obtain ⟨l, next, q, -, hq⟩ := hwait
    obtain ⟨pc', hq', hl⟩ := h.held l q hq
    exact ⟨q, Machine.exists_go hq' fun l' next' heq => by rw [heq] at hl; cases hl⟩
  · refine ⟨p, Machine.exists_go hp fun l next heq => ?_⟩
    by_contra hne
    obtain ⟨q, hq⟩ := Option.ne_none_iff_exists'.1 hne
    exact hwait ⟨l, next, q, heq, hq⟩

end Machine

end TxnDb.Oracle
