import TxnDb.Lib.TwoPhase

/-!
# The invariant of two-phase locking

When a call takes its last lock, what its program will do is settled: it only accesses cells that
nobody else accesses until it is done. So the cells of the execution at once are those of the run,
if every call that has all its locks were to complete (`Inv`): every kind of step keeps that.
-/

namespace TwoPhase

variable {ι α ρ κ ο ω : Type*} [DecidableEq ι] {I : Interface ι α ρ κ ο ω} {s s' : State ι α ρ κ}
  {p p' : ℕ} {x y : Proc ι α ρ κ} {c : κ} {r : ρ} {o : ο} {held : List ι} {σ τ : ι → α} {i : ι}
  {e : Event ι ρ κ ο ω} {tr : List (Event ι ρ κ ο ω)} {L : List (Atom ρ κ ο ω)} {σ₀ : ι → α}

/-- The cells `σ` of the execution at once are those of `s`, once every call that has all
    its locks completes; its result is in the trace `L`. -/
structure Inv (I : Interface ι α ρ κ ο ω) (L : List (Atom ρ κ ο ω)) (s : State ι α ρ κ)
    (σ : ι → α) : Prop where
  /-- No cell is locked twice. -/
  disjoint : ∀ {p p' x x' i}, s.proc p = some x → s.proc p' = some x' → i ∈ x.held →
    i ∈ x'.held → p = p'
  locking : ∀ {p x}, s.proc p = some x → x.todo ≠ [] →
    x.prog = I.prog x.call ∧ ∀ i ∈ I.locks x.call, i ∈ x.held ∨ i ∈ x.todo
  within : ∀ {p x}, s.proc p = some x → x.todo = [] → x.prog.Within x.held
  inside : ∀ {p x i}, s.proc p = some x → x.todo = [] → i ∈ x.held →
    σ i = (x.prog.run s.cells).2 i
  outside : ∀ {i}, (∀ p x, s.proc p = some x → x.todo = [] → i ∉ x.held) → σ i = s.cells i
  result : ∀ {p x}, s.proc p = some x → x.todo = [] →
    .call p x.call (x.prog.run s.cells).1 ∈ L
  /-- Only calls that have all their locks are in the trace. -/
  named : ∀ {p c r}, .call p c r ∈ L → p < s.procs.length ∧ ∀ x, s.proc p = some x → x.todo = []

namespace Takes

/-- It is not in the trace of the execution at once. -/
theorem call_notMem (h : Takes I s s' p x) (hinv : Inv I L s σ) : .call p c r ∉ L := fun hmem => by
  obtain ⟨hlt, hfull⟩ := hinv.named hmem
  rcases h.locking with hle | ⟨y, hy, hne⟩
  · exact absurd hlt (not_lt.2 hle)
  · exact hne (hfull y hy)

theorem disjoint (h : Takes I s s' p x) (hinv : Inv I L s σ) {p₁ p₂ : ℕ} {x₁ x₂ : Proc ι α ρ κ}
    (h₁ : s'.proc p₁ = some x₁) (h₂ : s'.proc p₂ = some x₂) (hi₁ : i ∈ x₁.held)
    (hi₂ : i ∈ x₂.held) : p₁ = p₂ := by
  rcases h.cases h₁ with ⟨rfl, rfl⟩ | ⟨hne₁, h₁⟩ <;> rcases h.cases h₂ with ⟨rfl, rfl⟩ | ⟨hne₂, h₂⟩
  · rfl
  · exact absurd hi₂ (h.free i hi₁ _ _ hne₂ h₂)
  · exact absurd hi₁ (h.free i hi₂ _ _ hne₁ h₁)
  · exact hinv.disjoint h₁ h₂ hi₁ hi₂

/-- It locks cells that are as in the execution at once. -/
theorem cells_eq (h : Takes I s s' p x) (hinv : Inv I L s σ) (hi : i ∈ x.held) :
    σ i = s.cells i :=
  hinv.outside fun p' y hy htodo => h.free i hi p' y (h.ne_of_full hy htodo) hy

end Takes

namespace Inv

/-- A call takes a lock that is not its last one. -/
theorem wait (hinv : Inv I L s σ) (h : Takes I s s' p x) (hx : x.todo ≠ []) : Inv I L s' σ where
  disjoint := h.disjoint hinv
  locking {p' y} hy htodo := by
    rcases h.cases hy with ⟨rfl, rfl⟩ | ⟨-, hy⟩
    · exact ⟨h.prog, h.locks⟩
    · exact hinv.locking hy htodo
  within {p' y} hy htodo := by
    rcases h.cases hy with ⟨rfl, rfl⟩ | ⟨-, hy⟩
    · exact absurd htodo hx
    · exact hinv.within hy htodo
  inside {p' y i} hy htodo hi := by
    rcases h.cases hy with ⟨rfl, rfl⟩ | ⟨-, hy⟩
    · exact absurd htodo hx
    · rw [h.cells]
      exact hinv.inside hy htodo hi
  outside {i} hi := by
    rw [h.cells]
    refine hinv.outside fun p' y hy htodo => hi p' y ?_ htodo
    rw [h.proc_of_ne (h.ne_of_full hy htodo), hy]
  result {p' y} hy htodo := by
    rcases h.cases hy with ⟨rfl, rfl⟩ | ⟨-, hy⟩
    · exact absurd htodo hx
    · rw [h.cells]
      exact hinv.result hy htodo
  named {p' c r} hmem := by
    obtain ⟨hlt, hfull⟩ := hinv.named hmem
    refine ⟨hlt.trans_le h.length_le, fun y hy => ?_⟩
    rcases h.cases hy with ⟨rfl, rfl⟩ | ⟨-, hy⟩
    · exact absurd hmem (h.call_notMem hinv)
    · exact hfull y hy

/-- A call takes its last lock: it is executed at once. -/
theorem enter (hinv : Inv I L s σ) (h : Takes I s s' p x) (hx : x.todo = []) :
    Inv I (L ++ [.call p x.call ((I.prog x.call).run σ).1]) s' ((I.prog x.call).run σ).2 := by
  have hwithin : (I.prog x.call).Within x.held := (I.within x.call).mono fun i hi =>
    (h.locks i hi).resolve_right (by rw [hx]; exact List.not_mem_nil)
  -- on the cells it has locked, the call does now what it would on the cells as they will be
  obtain ⟨hresult, hcells⟩ := hwithin.run_congr fun i hi => h.cells_eq hinv hi
  refine ⟨h.disjoint hinv, fun {p' y} hy htodo => ?_, fun {p' y} hy htodo => ?_,
    fun {p' y i} hy htodo hi => ?_, fun {i} hi => ?_, fun {p' y} hy htodo => ?_,
    fun {p' c r} hmem => ?_⟩
  · rcases h.cases hy with ⟨rfl, rfl⟩ | ⟨-, hy⟩
    · exact absurd hx htodo
    · exact hinv.locking hy htodo
  · rcases h.cases hy with ⟨rfl, rfl⟩ | ⟨-, hy⟩
    · rw [h.prog]
      exact hwithin
    · exact hinv.within hy htodo
  · rcases h.cases hy with ⟨rfl, rfl⟩ | ⟨hne, hy⟩
    · rw [h.prog, h.cells]
      exact hcells i hi
    · -- the call does not access what others have locked
      rw [h.cells, hwithin.run_of_notMem fun hix => h.free i hix p' y hne hy hi]
      exact hinv.inside hy htodo hi
  -- a cell outside all calls is outside this one too, which leaves it
  · rw [h.cells, hwithin.run_of_notMem (hi p x (by rw [h.proc, if_pos rfl]) hx)]
    refine hinv.outside fun p' y hy htodo => hi p' y ?_ htodo
    rw [h.proc_of_ne (h.ne_of_full hy htodo), hy]
  · rw [h.cells]
    rcases h.cases hy with ⟨rfl, rfl⟩ | ⟨-, hy⟩
    · rw [h.prog, ← hresult]
      exact List.mem_append_right _ (List.mem_singleton_self _)
    · exact List.mem_append_left _ (hinv.result hy htodo)
  · rcases List.mem_append.1 hmem with hmem | hmem
    · obtain ⟨hlt, hfull⟩ := hinv.named hmem
      refine ⟨hlt.trans_le h.length_le, fun y hy => ?_⟩
      rcases h.cases hy with ⟨rfl, rfl⟩ | ⟨-, hy⟩
      · exact hx
      · exact hfull y hy
    · obtain ⟨rfl, -, -⟩ := Atom.call.inj (List.mem_singleton.1 hmem)
      refine ⟨h.lt, fun y hy => ?_⟩
      rcases h.cases hy with ⟨-, rfl⟩ | ⟨hne, -⟩
      · exact hx
      · exact absurd rfl hne

/-- What a step that takes no lock has to keep, of the calls that have all their locks:
    each has the locks it had, or fewer, and what is left of it does what was left. -/
theorem go {L' : List (Atom ρ κ ο ω)} {τ : ι → α} (hinv : Inv I L s σ)
    (hcalls : ∀ p c r, .call p c r ∈ L' ↔ .call p c r ∈ L)
    (hlen : s'.procs.length = s.procs.length)
    (hproc : ∀ p' y, s'.proc p' = some y → ∃ x, s.proc p' = some x ∧ y.call = x.call ∧
      y.todo = x.todo ∧ (y.todo ≠ [] → y = x) ∧ (∀ i ∈ y.held, i ∈ x.held) ∧
      (y.todo = [] → y.prog.Within y.held ∧ (y.prog.run s'.cells).1 = (x.prog.run s.cells).1 ∧
        ∀ i ∈ y.held, τ i = (y.prog.run s'.cells).2 i))
    (houtside : ∀ i, (∀ p x, s'.proc p = some x → x.todo = [] → i ∉ x.held) → τ i = s'.cells i) :
    Inv I L' s' τ where
  disjoint {p₁ p₂ x₁ x₂ i} h₁ h₂ hi₁ hi₂ := by
    obtain ⟨y₁, hy₁, -, -, -, hsub₁, -⟩ := hproc p₁ x₁ h₁
    obtain ⟨y₂, hy₂, -, -, -, hsub₂, -⟩ := hproc p₂ x₂ h₂
    exact hinv.disjoint hy₁ hy₂ (hsub₁ i hi₁) (hsub₂ i hi₂)
  locking {p' y} hy htodo := by
    obtain ⟨x, hx, -, -, heq, -, -⟩ := hproc p' y hy
    obtain rfl := heq htodo
    exact hinv.locking hx htodo
  within {p' y} hy htodo := by
    obtain ⟨x, -, -, -, -, -, hfull⟩ := hproc p' y hy
    exact (hfull htodo).1
  inside {p' y i} hy htodo hi := by
    obtain ⟨x, -, -, -, -, -, hfull⟩ := hproc p' y hy
    exact (hfull htodo).2.2 i hi
  outside {i} := houtside i
  result {p' y} hy htodo := by
    obtain ⟨x, hx, hcall, heq, -, -, hfull⟩ := hproc p' y hy
    rw [(hfull htodo).2.1, hcall, hcalls]
    exact hinv.result hx (heq ▸ htodo)
  named {p' c r} hmem := by
    obtain ⟨hlt, htodo⟩ := hinv.named ((hcalls ..).1 hmem)
    refine ⟨hlen ▸ hlt, fun y hy => ?_⟩
    obtain ⟨x, hx, -, heq, -, -, -⟩ := hproc p' y hy
    exact heq.trans (htodo x hx)

/-- Another call, or an operation, changes a cell that the call `x` has not locked. -/
theorem run_update (hinv : Inv I L s σ) (hx : s.proc p = some x) (htodo : x.todo = [])
    (hi : i ∉ x.held) (a : α) :
    (x.prog.run (Function.update s.cells i a)).1 = (x.prog.run s.cells).1 ∧
      ∀ j ∈ x.held, σ j = (x.prog.run (Function.update s.cells i a)).2 j := by
  obtain ⟨hresult, hcells⟩ := (hinv.within hx htodo).run_congr (σ := Function.update s.cells i a)
    (τ := s.cells) fun j hj => Function.update_of_ne (by rintro rfl; exact hi hj) _ _
  exact ⟨hresult, fun j hj => (hinv.inside hx htodo hj).trans (hcells j hj).symm⟩

/-- A cell that the call `p` has not locked is as in the execution at once, if nobody else
    has locked it. -/
theorem outside_of_proc (hinv : Inv I L s σ) (hp : s.proc p = some x) (hi : i ∉ x.held)
    (hothers : ∀ p' y, p' ≠ p → s.proc p' = some y → y.todo = [] → i ∉ y.held) :
    σ i = s.cells i := by
  refine hinv.outside fun p' y hy htodo => ?_
  by_cases heq : p' = p
  · subst heq
    obtain rfl := Option.some.inj (hy.symm.trans hp)
    exact hi
  · exact hothers p' y heq hy htodo

/-- A call that has all its locks accesses a cell. -/
theorem access (hinv : Inv I L s σ) {f : α → α} {next : α → Prog ι α ρ}
    (hp : s.proc p = some ⟨c, [], held, .access i f next⟩) :
    Inv I L { s.set p (some ⟨c, [], held, next (s.cells i)⟩) with
      cells := Function.update s.cells i (f (s.cells i)) } σ := by
  have hwithin : i ∈ held ∧ ∀ a, (next a).Within held := hinv.within hp rfl
  have hset := State.proc_set hp (some ⟨c, [], held, next (s.cells i)⟩)
  refine hinv.go (fun _ _ _ => Iff.rfl) List.length_set (fun p' y hy => ?_) fun j hj => ?_
  · change (s.set p _).proc p' = some y at hy
    rw [hset] at hy
    split_ifs at hy with heq
    · obtain rfl := Option.some.inj hy
      refine ⟨⟨c, [], held, .access i f next⟩, by rw [heq]; exact hp, rfl, rfl,
        fun hne => absurd rfl hne, fun _ hj => hj, fun _ => ?_⟩
      exact ⟨hwithin.2 _, rfl, fun j hj => hinv.inside hp rfl hj⟩
    · refine ⟨y, hy, rfl, rfl, fun _ => rfl, fun _ hj => hj, fun htodo => ?_⟩
      have hi : i ∉ y.held := fun hi => heq (hinv.disjoint hy hp hi hwithin.1)
      exact ⟨hinv.within hy htodo, hinv.run_update hy htodo hi _⟩
  · have hheld : j ∉ held := hj p _ ((hset p).trans (if_pos rfl)) rfl
    have hne : j ≠ i := fun heq => hheld (heq ▸ hwithin.1)
    change σ j = Function.update s.cells i (f (s.cells i)) j
    rw [Function.update_of_ne hne]
    exact hinv.outside_of_proc hp hheld fun p' y hne hy =>
      hj p' y ((hset p').trans ((if_neg hne).trans hy))

/-- A call that is done releases a lock. -/
theorem release (hinv : Inv I L s σ) (hp : s.proc p = some ⟨c, [], held, .done r⟩) :
    Inv I L (s.set p (some ⟨c, [], held.filter (· ≠ i), .done r⟩)) σ := by
  have hset := State.proc_set hp (some ⟨c, [], held.filter (· ≠ i), .done r⟩)
  refine hinv.go (fun _ _ _ => Iff.rfl) List.length_set (fun p' y hy => ?_) fun j hj => ?_
  · rw [hset] at hy
    split_ifs at hy with heq
    · obtain rfl := Option.some.inj hy
      refine ⟨⟨c, [], held, .done r⟩, by rw [heq]; exact hp, rfl, rfl, fun hne => absurd rfl hne,
        fun _ hj => (List.mem_filter.1 hj).1, fun _ => ⟨trivial, rfl, fun j hj => ?_⟩⟩
      have hheld : j ∈ held := (List.mem_filter.1 hj).1
      have hcell : σ j = s.cells j := hinv.inside hp rfl hheld
      exact hcell
    · exact ⟨y, hy, rfl, rfl, fun _ => rfl, fun _ hj => hj, fun htodo =>
        ⟨hinv.within hy htodo, rfl, fun j hj => hinv.inside hy htodo hj⟩⟩
  · by_cases hheld : j ∈ held
    · -- a cell that is released is as the call left it
      exact hinv.inside hp rfl hheld
    · exact hinv.outside_of_proc hp hheld fun p' y hne hy =>
        hj p' y ((hset p').trans ((if_neg hne).trans hy))

/-- A call that has released its locks returns. -/
theorem finish (hinv : Inv I L s σ) (hp : s.proc p = some ⟨c, [], [], .done r⟩) :
    Inv I L (s.set p none) σ := by
  have hset := State.proc_set hp none
  refine hinv.go (fun _ _ _ => Iff.rfl) List.length_set (fun p' y hy => ?_) fun j hj => ?_
  · rw [hset] at hy
    split_ifs at hy with heq
    exact ⟨y, hy, rfl, rfl, fun _ => rfl, fun _ hj => hj, fun htodo =>
      ⟨hinv.within hy htodo, rfl, fun j hj => hinv.inside hy htodo hj⟩⟩
  · exact hinv.outside_of_proc hp List.not_mem_nil fun p' y hne hy =>
      hj p' y ((hset p').trans ((if_neg hne).trans hy))

/-- An operation is done on a cell that nobody has locked. -/
theorem single (hinv : Inv I L s σ) (hfree : s.Free i) (a : α) (out : ω) :
    σ i = s.cells i ∧ Inv I (L ++ [.single o out]) { s with cells := Function.update s.cells i a }
      (Function.update σ i a) := by
  have hcell : σ i = s.cells i := hinv.outside fun p x hp _ => hfree.notMem hp
  refine ⟨hcell, hinv.go (fun _ _ _ => by simp) rfl (fun p' y hy => ?_) fun j hj => ?_⟩
  · have hi : i ∉ y.held := hfree.notMem hy
    refine ⟨y, hy, rfl, rfl, fun _ => rfl, fun _ hj => hj, fun htodo => ?_⟩
    obtain ⟨hresult, hcells⟩ := hinv.run_update hy htodo hi a
    refine ⟨hinv.within hy htodo, hresult, fun j hj => ?_⟩
    rw [Function.update_of_ne (by rintro rfl; exact hi hj)]
    exact hcells j hj
  · change Function.update σ i a j = Function.update s.cells i a j
    rw [Function.update_apply, Function.update_apply, hinv.outside hj]

/-- When no call is between its last lock and its last access, the cells are those of the
    execution at once. -/
theorem settled (hinv : Inv I L s σ) (hs : s.Settled) : σ = s.cells := by
  funext i
  by_cases hi : ∃ p x, s.proc p = some x ∧ x.todo = [] ∧ i ∈ x.held
  · obtain ⟨p, x, hp, htodo, hi⟩ := hi
    obtain ⟨r, hr⟩ := hs p x hp htodo
    rw [hinv.inside hp htodo hi, hr]
    rfl
  · exact hinv.outside fun p x hp htodo hix => hi ⟨p, x, hp, htodo, hix⟩

end Inv

end TwoPhase
