import TxnDb.Lib.TwoPhase.Invariant

/-!
# Two-phase locking, linearized

In every run, what the calls and operations return, and what they leave in the cells, is as if
each call were executed at once when it took its last lock (`linearizes_of_run`).
-/

namespace TwoPhase

variable {ι α ρ κ ο ω : Type*} [DecidableEq ι] {I : Interface ι α ρ κ ο ω} {s s' : State ι α ρ κ}
  {p p' : ℕ} {x y : Proc ι α ρ κ} {c : κ} {r : ρ} {o : ο} {held : List ι} {σ τ : ι → α} {i : ι}
  {e : Event ι ρ κ ο ω} {tr : List (Event ι ρ κ ο ω)} {L : List (Atom ρ κ ο ω)} {σ₀ : ι → α}

namespace Interface.Linearizes

/-- An event at which nothing is executed at once. -/
theorem skip (hL : I.Linearizes σ₀ tr L σ) (hpoint : e.point = none)
    (hret : ∀ p r, e = .returned p r → ∃ c, .call p c r ∈ L) :
    I.Linearizes σ₀ (tr ++ [e]) L σ where
  run := hL.run
  order := by rw [hL.order, List.filterMap_append, List.filterMap_cons_none hpoint,
    List.filterMap_nil, List.append_nil]
  once := hL.once
  started p c r hmem := by
    obtain ⟨last, h⟩ := hL.started p c r hmem
    exact ⟨last, List.mem_append_left _ h⟩
  returned p r hmem := by
    rcases List.mem_append.1 hmem with hmem | hmem
    · exact hL.returned p r hmem
    · exact hret p r (List.mem_singleton.1 hmem).symm

/-- An event at which a call or an operation is executed at once. -/
theorem snoc (hL : I.Linearizes σ₀ tr L σ) {a : Atom ρ κ ο ω} (hstep : Trace.Step I.atomic σ a τ)
    (hpoint : e.point = some a.point) (hname : ∀ p, a.name = some p → p ∉ L.filterMap Atom.name)
    (hstarted : ∀ p c r, a = .call p c r → ∃ last, .started p c last ∈ tr ++ [e]) :
    I.Linearizes σ₀ (tr ++ [e]) (L ++ [a]) τ where
  run := hL.run.snoc hstep
  order := by rw [List.map_append, hL.order, List.filterMap_append,
    List.filterMap_cons_some hpoint]; rfl
  once := by
    rw [List.filterMap_append]
    refine List.nodup_append.2 ⟨hL.once, ?_, fun p hp p' hp' => ?_⟩
    · cases ha : a.name <;> simp [ha]
    · obtain ⟨b, hb, ha⟩ := List.mem_filterMap.1 hp'
      rintro rfl
      obtain rfl := List.mem_singleton.1 hb
      exact hname p ha hp
  started p c r hmem := by
    rcases List.mem_append.1 hmem with hmem | hmem
    · obtain ⟨last, h⟩ := hL.started p c r hmem
      exact ⟨last, List.mem_append_left _ h⟩
    · exact hstarted p c r (List.mem_singleton.1 hmem).symm
  returned p r hmem := by
    rcases List.mem_append.1 hmem with hmem | hmem
    · obtain ⟨c, hc⟩ := hL.returned p r hmem
      exact ⟨c, List.mem_append_left _ hc⟩
    · obtain rfl := List.mem_singleton.1 hmem
      cases hpoint

/-- A call takes a lock: it is executed at once if that is its last. -/
theorem takes (hL : I.Linearizes σ₀ tr L σ) (hinv : Inv I L s σ) (h : Takes I s s' p x)
    (hpoint : e.point = if x.todo.isEmpty then some (.inl (p, x.call)) else none)
    (hstarted : ∃ last, .started p x.call last ∈ tr ++ [e]) (hret : ∀ p r, e ≠ .returned p r) :
    ∃ L' σ', I.Linearizes σ₀ (tr ++ [e]) L' σ' ∧ Inv I L' s' σ' := by
  by_cases hx : x.todo = []
  · rw [hx] at hpoint
    refine ⟨_, _, hL.snoc ⟨.inl (p, x.call), rfl⟩ hpoint (fun p' hp' hmem => ?_)
      fun p' c r heq => ?_, hinv.enter h hx⟩
    · obtain rfl : p = p' := Option.some.inj hp'
      obtain ⟨a, ha, hname⟩ := List.mem_filterMap.1 hmem
      cases a with
      | call p' c r =>
        obtain rfl : p' = p := Option.some.inj hname
        exact h.call_notMem hinv ha
      | single => cases hname
    · obtain ⟨rfl, rfl, -⟩ := Atom.call.inj heq
      exact hstarted
  · rw [if_neg (by simpa using hx)] at hpoint
    exact ⟨L, σ, hL.skip hpoint fun p r he => absurd he (hret p r), hinv.wait h hx⟩

end Interface.Linearizes

omit [DecidableEq ι] in
theorem takes_start (c : κ) :
    Takes I s ⟨s.cells, s.procs ++ [some ⟨c, I.locks c, [], I.prog c⟩]⟩ s.procs.length
      ⟨c, I.locks c, [], I.prog c⟩ where
  cells := rfl
  proc := State.proc_append _
  lt := by simp
  length_le := by simp
  locking := .inl le_rfl
  free _ hi := absurd hi List.not_mem_nil
  prog := rfl
  locks _ hi := .inr hi

theorem Inv.takes_acquire (hinv : Inv I L s σ) {todo : List ι} {prog : Prog ι α ρ}
    (hp : s.proc p = some ⟨c, i :: todo, held, prog⟩) (hfree : s.Free i) :
    Takes I s (s.set p (some ⟨c, todo, i :: held, prog⟩)) p ⟨c, todo, i :: held, prog⟩ where
  cells := rfl
  proc := State.proc_set hp _
  lt := (State.lt_of_proc hp).trans_eq List.length_set.symm
  length_le := List.length_set.ge
  locking := .inr ⟨_, hp, List.cons_ne_nil _ _⟩
  free j hj p' y hne hy hjy := by
    rcases List.mem_cons.1 hj with rfl | hj
    · exact hfree.notMem hy hjy
    · exact hne (hinv.disjoint hy hp hjy hj)
  prog := (hinv.locking hp (List.cons_ne_nil _ _)).1
  locks j hj := by
    rcases (hinv.locking hp (List.cons_ne_nil _ _)).2 j hj with hheld | htodo
    · exact .inl (List.mem_cons_of_mem _ hheld)
    · rcases List.mem_cons.1 htodo with rfl | htodo
      · exact .inl List.mem_cons_self
      · exact .inr htodo

/-- The calls in progress began. -/
theorem started_of_run (h : Trace.Run I.step ⟨σ₀, []⟩ tr s) (hp : s.proc p = some x) :
    ∃ last, .started p x.call last ∈ tr := by
  revert p x
  refine h.invariant (motive := fun tr s => ∀ {p x}, s.proc p = some x →
    ∃ last, .started p x.call last ∈ tr) nofun ?_
  rintro tr s e s' - ih ⟨a, ha⟩ p x hx
  -- a step may change what is left of a call, and not the call
  have hkeep : ∀ {y}, s.proc p = some y → y.call = x.call →
      ∃ last, .started p x.call last ∈ tr ++ [e] := fun hy hcall => by
    obtain ⟨last, hmem⟩ := ih hy
    exact ⟨last, List.mem_append_left _ (hcall ▸ hmem)⟩
  have hset : ∀ {p' y z}, s.proc p' = some y → (s.set p' z).proc p = some x →
      (∀ w ∈ z, w.call = y.call) → ∃ last, .started p x.call last ∈ tr ++ [e] :=
    fun {p' y z} hy hx hz => by
      rw [State.proc_set hy] at hx
      split_ifs at hx with heq
      · subst heq
        exact hkeep hy (hz x hx).symm
      · exact hkeep hx rfl
  cases step_inv ha with
  | started c =>
    rw [State.proc_append] at hx
    split_ifs at hx with heq
    · obtain rfl := Option.some.inj hx
      exact ⟨_, List.mem_append_right _ (by rw [heq]; exact List.mem_singleton_self _)⟩
    · exact hkeep hx rfl
  | acquired hp hfree => exact hset hp hx fun _ hw => by obtain rfl := Option.some.inj hw; rfl
  | accessed hp => exact hset hp hx fun _ hw => by obtain rfl := Option.some.inj hw; rfl
  | released hp => exact hset hp hx fun _ hw => by obtain rfl := Option.some.inj hw; rfl
  | returned hp => exact hset hp hx nofun
  | single => exact hkeep hx rfl

/-- A step of the run is one of the execution at once, or none. -/
theorem Step.linearizes (h : Step I s e s') (hL : I.Linearizes σ₀ tr L σ) (hinv : Inv I L s σ)
    (hstarted : ∀ {p x}, s.proc p = some x → ∃ last, .started p x.call last ∈ tr) :
    ∃ L' σ', I.Linearizes σ₀ (tr ++ [e]) L' σ' ∧ Inv I L' s' σ' := by
  cases h with
  -- a call without locks is executed when it starts
  | started c =>
    refine hL.takes hinv (takes_start c) ?_ ?_ nofun
    · cases (I.locks c).isEmpty <;> rfl
    · exact ⟨_, List.mem_append_right _ (List.mem_singleton_self _)⟩
  | @acquired p c i todo held prog hp hfree =>
    refine hL.takes hinv (hinv.takes_acquire hp hfree) ?_ ?_ nofun
    · cases todo.isEmpty <;> rfl
    · obtain ⟨last, hmem⟩ := hstarted hp
      exact ⟨last, List.mem_append_left _ hmem⟩
  | accessed hp => exact ⟨L, σ, hL.skip rfl nofun, hinv.access hp⟩
  | released hp => exact ⟨L, σ, hL.skip rfl nofun, hinv.release hp⟩
  | @returned p c r hp =>
    refine ⟨L, σ, hL.skip rfl fun p' r' he => ?_, hinv.finish hp⟩
    obtain ⟨rfl, rfl⟩ := Event.returned.inj he
    exact ⟨c, hinv.result hp rfl⟩
  | single o hfree =>
    obtain ⟨hcell, hinv⟩ := hinv.single hfree (I.op o (s.cells (I.cell o))).2
      (I.op o (s.cells (I.cell o))).1
    refine ⟨_, _, hL.snoc (a := .single o _) ⟨.inr o, ?_⟩ rfl nofun nofun, hinv⟩
    rw [← hcell]
    rfl

/-- Every run is, in what calls and operations return, an execution of each call at once
    when it takes its last lock; and its cells are those of this execution whenever no
    call is between its last lock and its last access. -/
theorem linearizes_of_run (h : Trace.Run I.step ⟨σ₀, []⟩ tr s) :
    ∃ L σ, I.Linearizes σ₀ tr L σ ∧ (s.Settled → σ = s.cells) := by
  suffices hrun : ∃ L σ, I.Linearizes σ₀ tr L σ ∧ Inv I L s σ by
    obtain ⟨L, σ, hL, hinv⟩ := hrun
    exact ⟨L, σ, hL, hinv.settled⟩
  refine h.invariant (motive := fun tr s => ∃ L σ, I.Linearizes σ₀ tr L σ ∧ Inv I L s σ) ?_ ?_
  · refine ⟨[], σ₀, ⟨.nil, rfl, List.nodup_nil, nofun, nofun⟩, nofun, nofun, nofun, nofun,
      fun _ => rfl, nofun, nofun⟩
  · rintro tr s e s' hrun ⟨L, σ, hL, hinv⟩ ⟨a, ha⟩
    exact (step_inv ha).linearizes hL hinv (started_of_run hrun)

end TwoPhase
