import Mathlib.Data.List.GetD
import Mathlib.Order.Nat
import TxnDb.Lib.Assoc
import TxnDb.Lib.Trace

/-!
# Linearizability

Calls of the operations of an object start, run for a while, and return. In the
*atomic* system (`State.step`), a call takes effect at once, at some point between
its start and its return, and answers what the operation does then. What is
observed of it is as if the calls were made one after the other, in an order that
agrees with the one in which they are observed not to overlap (`Linearizes`,
`linearizes_of_run`).

A system whose calls take many steps is *linearizable* if it is simulated by the
atomic one, which takes a step whenever a call of the system takes effect
(`linearizes_of_simulates`).
-/

namespace Atomic

variable {σ ο α : Type*}

/-- What is observed of calls. A call is named by its position among those started. -/
inductive Event (ο α : Type*)
  | started (p : ℕ) (op : ο)
  /-- Some call takes a step. -/
  | ran
  | returned (p : ℕ) (ans : α)
  deriving DecidableEq

/-- A call of one of the operations `P` starts. -/
def Event.starts (P : ο → Bool) : Event ο α → Bool
  | .started _ op => P op
  | _ => false

abbrev Event.isStarted : Event ο α → Bool := Event.starts fun _ => true

/-- A call in progress. -/
inductive Call (ο α : Type*)
  | waiting (op : ο)
  /-- It took effect, and answers `ans`. -/
  | done (op : ο) (ans : α)

/-- An object, and the calls that started, `none` once they have returned. -/
structure State (σ ο α : Type*) where
  obj : σ
  calls : List (Option (Call ο α))

inductive Action (ο : Type*)
  | start (op : ο)
  | rest
  | act (p : ℕ)
  | ret (p : ℕ)

namespace State

/-- The call named `p`, if it is in progress. -/
def call (s : State σ ο α) (p : ℕ) : Option (Call ο α) := s.calls.getD p none

/-- The steps of the calls of an object, whose operations are given by `apply`. -/
def step (apply : σ → ο → α × σ) (s : State σ ο α) : Action ο → Option (State σ ο α × Event ο α)
  | .start op => some (⟨s.obj, s.calls ++ [some (.waiting op)]⟩, .started s.calls.length op)
  | .rest => some (s, .ran)
  | .act p =>
    match s.call p with
    | some (.waiting op) =>
      some (⟨(apply s.obj op).2, s.calls.set p (some (.done op (apply s.obj op).1))⟩, .ran)
    | _ => none
  | .ret p =>
    match s.call p with
    | some (.done _ ans) => some (⟨s.obj, s.calls.set p none⟩, .returned p ans)
    | _ => none

end State

/-- A call made at once. -/
structure Atom (ο α : Type*) where
  name : ℕ
  op : ο
  ans : α
  deriving DecidableEq

/-- The calls made one after the other. -/
def sequential (apply : σ → ο → α × σ) (o : σ) (c : ℕ × ο) : Option (σ × Atom ο α) :=
  some ((apply o c.2).2, ⟨c.1, c.2, (apply o c.2).1⟩)

variable {apply : σ → ο → α × σ} {s s' : State σ ο α} {e : Event ο α} {tr : List (Event ο α)}
  {L : List (Atom ο α)} {o₀ o : σ} {p q : ℕ} {op : ο} {ans : α} {x : Option (Call ο α)}

/-- The calls of `L`, made one after the other, explain what is observed: every call of
    `L` started, those that returned are in `L` with their answers, and what returned
    before a call of `L` started comes before it. -/
structure Linearizes (apply : σ → ο → α × σ) (o₀ : σ) (tr : List (Event ο α))
    (L : List (Atom ο α)) (o : σ) : Prop where
  run : Trace.Run (sequential apply) o₀ L o
  names : ∀ p op op', .started p op ∈ tr → .started p op' ∈ tr → op = op'
  once : (L.map Atom.name).Nodup
  started : ∀ a ∈ L, .started a.name a.op ∈ tr
  returned : ∀ p ans, .returned p ans ∈ tr → ∃ a ∈ L, a.name = p ∧ a.ans = ans
  order : ∀ L₁ a L₂ pre post p ans, L = L₁ ++ a :: L₂ → tr = pre ++ post →
    .returned p ans ∈ pre → .started a.name a.op ∈ post → ∃ b ∈ L₁, b.name = p ∧ b.ans = ans

/-! ## Steps -/

namespace State

theorem lt_of_call {c : Call ο α} (h : s.call p = some c) : p < s.calls.length := by
  by_contra hge
  rw [call, List.getD_eq_default _ _ (not_lt.1 hge)] at h
  cases h

theorem call_set {c : Call ο α} (h : s.call p = some c) (o : σ) (x : Option (Call ο α)) (q : ℕ) :
    (State.mk o (s.calls.set p x)).call q = if q = p then x else s.call q :=
  List.getD_set (lt_of_call h) _ _ _

theorem call_append (x : Option (Call ο α)) (q : ℕ) :
    (State.mk s.obj (s.calls ++ [x])).call q = if q = s.calls.length then x else s.call q :=
  List.getD_concat _ _ _ _

end State

/-- What a step is, for each event it is observed as. -/
inductive Step (apply : σ → ο → α × σ) (s : State σ ο α) : Event ο α → State σ ο α → Prop
  | started (op : ο) :
    Step apply s (.started s.calls.length op) ⟨s.obj, s.calls ++ [some (.waiting op)]⟩
  | rested : Step apply s .ran s
  | acted {p : ℕ} {op : ο} (hp : s.call p = some (.waiting op)) :
    Step apply s .ran
      ⟨(apply s.obj op).2, s.calls.set p (some (.done op (apply s.obj op).1))⟩
  | returned {p : ℕ} {op : ο} {ans : α} (hp : s.call p = some (.done op ans)) :
    Step apply s (.returned p ans) ⟨s.obj, s.calls.set p none⟩

theorem step_inv {a : Action ο} (h : s.step apply a = some (s', e)) : Step apply s e s' := by
  cases a with
  | start op =>
    obtain ⟨rfl, rfl⟩ := Prod.mk.inj (Option.some.inj h)
    exact .started op
  | rest =>
    obtain ⟨rfl, rfl⟩ := Prod.mk.inj (Option.some.inj h)
    exact .rested
  | act p =>
    simp only [State.step] at h
    split at h
    · next op hp =>
      obtain ⟨rfl, rfl⟩ := Prod.mk.inj (Option.some.inj h)
      exact .acted hp
    · cases h
  | ret p =>
    simp only [State.step] at h
    split at h
    · next op ans hp =>
      obtain ⟨rfl, rfl⟩ := Prod.mk.inj (Option.some.inj h)
      exact .returned hp
    · cases h

/-- What the step of a call that stands at `c` does to the object: it takes effect, or rests. -/
inductive Effect (apply : σ → ο → α × σ) (o : σ) : Call ο α → σ → Call ο α → Prop
  | rest {c : Call ο α} : Effect apply o c o c
  | act {op : ο} : Effect apply o (.waiting op) (apply o op).2 (.done op (apply o op).1)

theorem Effect.step {c c' : Call ο α} {o' : σ} (h : Effect apply s.obj c o' c')
    (hp : s.call p = some c) :
    Trace.Step (State.step apply) s .ran ⟨o', s.calls.set p (some c')⟩ := by
  cases h with
  | rest =>
    refine ⟨.rest, ?_⟩
    have hset : s.calls.set p (some c) = s.calls := by
      rw [← hp, State.call, List.getD_eq_getElem _ _ (State.lt_of_call hp), List.set_getElem_self]
    rw [hset]
    rfl
  | act => exact ⟨.act p, by rw [State.step, hp]⟩

/-! ## Runs of the atomic system -/

namespace Linearizes

/-- An event at which no call takes effect. A call that starts has a name of its own. -/
theorem skip (hL : Linearizes apply o₀ tr L o)
    (hstart : ∀ q op, e = .started q op → ∀ op', .started q op' ∉ tr)
    (hret : ∀ p ans, e = .returned p ans → ∃ a ∈ L, a.name = p ∧ a.ans = ans) :
    Linearizes apply o₀ (tr ++ [e]) L o where
  run := hL.run
  names p op op' hp hp' := by
    rcases List.mem_append.1 hp with hp | hp <;> rcases List.mem_append.1 hp' with hp' | hp'
    · exact hL.names p op op' hp hp'
    · exact absurd hp (hstart p op' (List.mem_singleton.1 hp').symm op)
    · exact absurd hp' (hstart p op (List.mem_singleton.1 hp).symm op')
    · exact (Event.started.inj ((List.mem_singleton.1 hp).trans (List.mem_singleton.1 hp').symm)).2
  once := hL.once
  started a ha := List.mem_append_left _ (hL.started a ha)
  returned p ans hmem := by
    rcases List.mem_append.1 hmem with hmem | hmem
    · exact hL.returned p ans hmem
    · exact hret p ans (List.mem_singleton.1 hmem).symm
  order L₁ a L₂ pre post p ans hcut htr hp ha := by
    induction post using List.reverseRecOn with
    | nil => cases ha
    | append_singleton post e' _ =>
      rw [← List.append_assoc] at htr
      obtain ⟨rfl, he⟩ := List.append_inj' htr rfl
      obtain rfl := List.singleton_inj.1 he
      rcases List.mem_append.1 ha with ha | ha
      · exact hL.order L₁ a L₂ pre post p ans hcut rfl hp ha
      · have hmem : a ∈ L := hcut ▸ List.mem_append_right _ List.mem_cons_self
        exact absurd (hL.started a hmem) (hstart _ _ (List.mem_singleton.1 ha).symm _)

/-- A call that has not taken effect does. -/
theorem snoc (hL : Linearizes apply o₀ tr L o) (hstarted : .started p op ∈ tr)
    (hp : p ∉ L.map Atom.name) :
    Linearizes apply o₀ tr (L ++ [⟨p, op, (apply o op).1⟩]) (apply o op).2 where
  run := hL.run.snoc ⟨(p, op), rfl⟩
  names := hL.names
  once := by
    rw [List.map_append]
    refine List.nodup_append.2 ⟨hL.once, List.nodup_singleton _, fun q hq q' hq' => ?_⟩
    obtain rfl := List.mem_singleton.1 hq'
    exact ne_of_mem_of_not_mem hq hp
  started a ha := by
    rcases List.mem_append.1 ha with ha | ha
    · exact hL.started a ha
    · obtain rfl := List.mem_singleton.1 ha
      exact hstarted
  returned q ans hmem := by
    obtain ⟨a, ha, h⟩ := hL.returned q ans hmem
    exact ⟨a, List.mem_append_left _ ha, h⟩
  order L₁ a L₂ pre post q ans hcut htr hq ha := by
    induction L₂ using List.reverseRecOn with
    | nil =>
      -- whatever returned has taken effect before
      obtain ⟨rfl, -⟩ := List.append_inj' hcut rfl
      exact hL.returned q ans (htr ▸ List.mem_append_left _ hq)
    | append_singleton L₂ b _ =>
      rw [← List.cons_append, ← List.append_assoc] at hcut
      exact hL.order L₁ a L₂ pre post q ans (List.append_inj' hcut rfl).1 htr hq ha

/-- The state in which a call of `L` takes effect, and what it answers. -/
theorem cut {L₁ L₂ : List (Atom ο α)} {a : Atom ο α}
    (hL : Linearizes apply o₀ tr (L₁ ++ a :: L₂) o) :
    ∃ m, Trace.Run (sequential apply) o₀ L₁ m ∧ a.ans = (apply m a.op).1 ∧
      Trace.Run (sequential apply) (apply m a.op).2 L₂ o := by
  obtain ⟨m, m', hpre, ⟨⟨q, op⟩, hstep⟩, hpost⟩ := hL.run.cut
  obtain ⟨rfl, rfl⟩ := Prod.mk.inj (Option.some.inj hstep)
  exact ⟨m, hpre, rfl, hpost⟩

/-- No more calls took effect than started. -/
theorem countP_le (hL : Linearizes apply o₀ tr L o) (P : ο → Bool) :
    L.countP (fun a => P a.op) ≤ tr.countP (Event.starts P) := by
  have hnodup : (L.map fun a => Event.started (α := α) a.name a.op).Nodup :=
    .of_map (fun | .started p _ => p | _ => 0) (by rw [List.map_map]; exact hL.once)
  have hsub : (L.map fun a => Event.started (α := α) a.name a.op) ⊆ tr := fun e he => by
    obtain ⟨a, ha, rfl⟩ := List.mem_map.1 he
    exact hL.started a ha
  have hle := (List.subperm_of_subset hnodup hsub).countP_le (Event.starts P)
  rwa [List.countP_map] at hle

/-- Calls that returned took effect. -/
theorem length_le (hL : Linearizes apply o₀ tr L o) [DecidableEq ο] [DecidableEq α] {ps : List ℕ}
    (hps : ps.Nodup) (h : ∀ p ∈ ps, .started p op ∈ tr ∧ .returned p ans ∈ tr) :
    ps.length ≤ L.countP fun a => a.op = op ∧ a.ans = ans := by
  have hsub : ps ⊆ (L.filter fun a => a.op = op ∧ a.ans = ans).map Atom.name := fun p hp => by
    obtain ⟨hstarted, hreturned⟩ := h p hp
    obtain ⟨a, ha, rfl, hans⟩ := hL.returned p ans hreturned
    have hop := hL.names _ _ _ (hL.started a ha) hstarted
    exact List.mem_map_of_mem (List.mem_filter.2 ⟨ha, decide_eq_true ⟨hop, hans⟩⟩)
  have hle := (List.subperm_of_subset hps hsub).length_le
  rwa [List.length_map, ← List.countP_eq_length_filter] at hle

end Linearizes

/-- What is known of the calls in progress, of which those of `L` took effect. -/
structure Inv (tr : List (Event ο α)) (L : List (Atom ο α)) (s : State σ ο α) : Prop where
  lt : ∀ p op, .started p op ∈ tr → p < s.calls.length
  waiting : ∀ p op, s.call p = some (.waiting op) → .started p op ∈ tr ∧ p ∉ L.map Atom.name
  done : ∀ p op ans, s.call p = some (.done op ans) → ⟨p, op, ans⟩ ∈ L

namespace Inv

theorem start (hinv : Inv tr L s) (hL : Linearizes apply o₀ tr L s.obj) (op : ο) :
    Inv (tr ++ [.started s.calls.length op]) L ⟨s.obj, s.calls ++ [some (.waiting op)]⟩ := by
  refine ⟨fun p op' hmem => ?_, fun p op' hp => ?_, fun p op' ans hp => ?_⟩
  · rw [List.length_append]
    rcases List.mem_append.1 hmem with hmem | hmem
    · exact (hinv.lt p op' hmem).trans (Nat.lt_succ_self _)
    · obtain ⟨rfl, -⟩ := Event.started.inj (List.mem_singleton.1 hmem)
      exact Nat.lt_succ_self _
  · rw [State.call_append] at hp
    split_ifs at hp with heq
    · cases hp
      subst heq
      -- nobody has the name of the new call
      refine ⟨List.mem_append_right _ (List.mem_singleton_self _), fun hmem => ?_⟩
      obtain ⟨b, hb, hname⟩ := List.mem_map.1 hmem
      exact (hname ▸ hinv.lt _ _ (hL.started b hb)).false
    · exact (hinv.waiting p op' hp).imp_left (List.mem_append_left _)
  · rw [State.call_append] at hp
    split_ifs at hp with heq
    · cases hp
    · exact hinv.done p op' ans hp

theorem rest (hinv : Inv tr L s) : Inv (tr ++ [.ran]) L s :=
  ⟨fun p op hmem => hinv.lt p op (by simpa using hmem),
    fun p op hp => (hinv.waiting p op hp).imp_left (List.mem_append_left _), hinv.done⟩

/-- A call takes effect. -/
theorem act (hinv : Inv tr L s) (hp : s.call p = some (.waiting op)) :
    Inv (tr ++ [.ran]) (L ++ [⟨p, op, (apply s.obj op).1⟩])
      ⟨(apply s.obj op).2, s.calls.set p (some (.done op (apply s.obj op).1))⟩ := by
  refine ⟨fun q op' hmem => ?_, fun q op' hq => ?_, fun q op' ans hq => ?_⟩
  · rw [List.length_set]
    exact hinv.lt q op' (by simpa using hmem)
  · rw [State.call_set hp] at hq
    split_ifs at hq with heq
    · cases hq
    · obtain ⟨hmem, hnot⟩ := hinv.waiting q op' hq
      refine ⟨List.mem_append_left _ hmem, fun hmem' => ?_⟩
      rw [List.map_append] at hmem'
      rcases List.mem_append.1 hmem' with hmem' | hmem'
      · exact hnot hmem'
      · exact heq (List.mem_singleton.1 hmem')
  · rw [State.call_set hp] at hq
    split_ifs at hq with heq
    · cases hq
      subst heq
      exact List.mem_append_right _ (List.mem_singleton_self _)
    · exact List.mem_append_left _ (hinv.done q op' ans hq)

theorem ret (hinv : Inv tr L s) (hp : s.call p = some (.done op ans)) :
    Inv (tr ++ [.returned p ans]) L ⟨s.obj, s.calls.set p none⟩ := by
  refine ⟨fun q op' hmem => ?_, fun q op' hq => ?_, fun q op' ans' hq => ?_⟩
  · rw [List.length_set]
    exact hinv.lt q op' (by simpa using hmem)
  · rw [State.call_set hp] at hq
    split_ifs at hq
    exact (hinv.waiting q op' hq).imp_left (List.mem_append_left _)
  · rw [State.call_set hp] at hq
    split_ifs at hq
    exact hinv.done q op' ans' hq

end Inv

/-- The atomic system is linearizable. -/
theorem linearizes_of_run (h : Trace.Run (State.step apply) ⟨o₀, []⟩ tr s) :
    ∃ L, Linearizes apply o₀ tr L s.obj := by
  suffices hrun : ∃ L, Linearizes apply o₀ tr L s.obj ∧ Inv tr L s by
    obtain ⟨L, hL, -⟩ := hrun
    exact ⟨L, hL⟩
  refine h.invariant (motive := fun tr s => ∃ L, Linearizes apply o₀ tr L s.obj ∧ Inv tr L s) ?_ ?_
  · exact ⟨[], ⟨.nil, nofun, List.nodup_nil, nofun, nofun, by simp⟩, nofun, nofun, nofun⟩
  rintro tr s e s' - ⟨L, hL, hinv⟩ ⟨a, ha⟩
  cases step_inv ha with
  | started op =>
    refine ⟨L, hL.skip (fun q op' he op'' hmem => ?_) nofun, hinv.start hL op⟩
    obtain ⟨rfl, -⟩ := Event.started.inj he
    exact (hinv.lt _ _ hmem).false
  | rested => exact ⟨L, hL.skip nofun nofun, hinv.rest⟩
  | acted hp =>
    obtain ⟨hstarted, hnot⟩ := hinv.waiting _ _ hp
    exact ⟨_, (hL.snoc hstarted hnot).skip nofun nofun, hinv.act hp⟩
  | returned hp =>
    refine ⟨L, hL.skip nofun fun p ans he => ?_, hinv.ret hp⟩
    obtain ⟨rfl, rfl⟩ := Event.returned.inj he
    exact ⟨_, hinv.done _ _ _ hp, rfl, rfl⟩

/-- A system that the atomic one simulates is linearizable. -/
theorem linearizes_of_simulates {τ β : Type*} {next : τ → β → Option (τ × Event ο α)} {t₀ t : τ}
    {R : τ → State σ ο α → Prop} (h : Trace.Run next t₀ tr t) (hR : R t₀ ⟨o₀, []⟩)
    (hstep : ∀ {t s e t'}, R t s → Trace.Step next t e t' →
      ∃ s', Trace.Step (State.step apply) s e s' ∧ R t' s') :
    ∃ L s, R t s ∧ Linearizes apply o₀ tr L s.obj := by
  obtain ⟨s, hrun, hRs⟩ := h.simulates hR hstep
  obtain ⟨L, hL⟩ := linearizes_of_run hrun
  exact ⟨L, s, hRs, hL⟩

end Atomic
