import Mathlib.Data.List.Basic
import Mathlib.Data.List.Induction

/-!
# Runs of a system

A system takes actions, each of which changes its state and is observed as an
event, if it is possible. A run from a state (`Run`) is the trace of the events
of some actions taken in turn, with the state reached.

An invariant relates the trace so far and the state; it holds of every run if
every step preserves it (`Run.invariant`). A run is cut at any event of its
trace into a run before it, a step, and a run after it (`Run.cut`).
-/

namespace Trace

variable {σ α ε : Type*} {next : σ → α → Option (σ × ε)} {s₀ s s' t : σ} {tr tr' : List ε} {e : ε}

/-- A step of the system: some action is possible, and makes it. -/
def Step (next : σ → α → Option (σ × ε)) (s : σ) (e : ε) (s' : σ) : Prop :=
  ∃ a, next s a = some (s', e)

/-- The runs from `s₀`: the trace of the events so far, and the state reached. -/
inductive Run (next : σ → α → Option (σ × ε)) (s₀ : σ) : List ε → σ → Prop
  | nil : Run next s₀ [] s₀
  | snoc {tr : List ε} {s s' : σ} {e : ε} :
      Run next s₀ tr s → Step next s e s' → Run next s₀ (tr ++ [e]) s'

/-- Taking actions in turn. -/
def exec (next : σ → α → Option (σ × ε)) : σ → List α → Option (List ε × σ)
  | s, [] => some ([], s)
  | s, a :: as => do
    let (s', e) ← next s a
    let (tr, t) ← exec next s' as
    pure (e :: tr, t)

/-- Runs compose. -/
theorem Run.append (h : Run next s₀ tr s) (h' : Run next s tr' t) : Run next s₀ (tr ++ tr') t := by
  induction h' with
  | nil => rwa [List.append_nil]
  | snoc _ hstep ih => rw [← List.append_assoc]; exact ih.snoc hstep

theorem Run.single (h : Step next s e s') : Run next s [e] s' := .snoc .nil h

/-- Taking actions in turn is a run. -/
theorem run_of_exec {as : List α} (h : exec next s as = some (tr, t)) : Run next s tr t := by
  induction as generalizing s tr with
  | nil =>
    obtain ⟨rfl, rfl⟩ : [] = tr ∧ s = t := by simpa [exec] using h
    exact .nil
  | cons a as ih =>
    simp only [exec, Option.bind_eq_bind, Option.bind_eq_some_iff] at h
    obtain ⟨⟨s', e⟩, hn, ⟨tr', t'⟩, hexec, heq⟩ := h
    obtain ⟨rfl, rfl⟩ : e :: tr' = tr ∧ t' = t := by simpa using heq
    exact (Run.single ⟨a, hn⟩).append (ih hexec)

/-- If every action is possible, in every state, any actions can be taken in turn. -/
theorem exec_total (h : ∀ s a, ∃ p, next s a = some p) (s : σ) (as : List α) :
    ∃ p, exec next s as = some p := by
  induction as generalizing s with
  | nil => exact ⟨_, rfl⟩
  | cons a as ih =>
    obtain ⟨⟨s', e⟩, hnext⟩ := h s a
    obtain ⟨⟨tr, t⟩, hexec⟩ := ih s'
    refine ⟨(e :: tr, t), ?_⟩
    simp only [exec, hnext, hexec, Option.bind_eq_bind, Option.bind_some]
    rfl

/-- If every step of a system is one of another system, observed as the same event,
    whenever their states are related, then so is what any actions do. -/
theorem exec_simulates {τ : Type*} {next' : τ → α → Option (τ × ε)} {R : σ → τ → Prop} {t₀ : τ}
    (hstep : ∀ {s t a s' e}, R s t → next s a = some (s', e) →
      ∃ t', next' t a = some (t', e) ∧ R s' t')
    {as : List α} (hR : R s t₀) (hexec : exec next s as = some (tr, s')) :
    ∃ t', exec next' t₀ as = some (tr, t') ∧ R s' t' := by
  induction as generalizing s t₀ tr with
  | nil =>
    obtain ⟨rfl, rfl⟩ : [] = tr ∧ s = s' := by simpa [exec] using hexec
    exact ⟨t₀, rfl, hR⟩
  | cons a as ih =>
    simp only [exec, Option.bind_eq_bind, Option.bind_eq_some_iff] at hexec
    obtain ⟨⟨s₁, e⟩, hnext, ⟨tr₁, s₂⟩, hexec, heq⟩ := hexec
    obtain ⟨rfl, rfl⟩ : e :: tr₁ = tr ∧ s₂ = s' := by simpa using heq
    obtain ⟨t₁, hnext', hR₁⟩ := hstep hR hnext
    obtain ⟨t', hexec', hR'⟩ := ih hR₁ hexec
    refine ⟨t', ?_, hR'⟩
    simp only [exec, hnext', hexec', Option.bind_eq_bind, Option.bind_some]
    rfl

/-- A relation between traces and states that every step preserves holds of every run. -/
theorem Run.invariant {motive : List ε → σ → Prop} (h : Run next s₀ tr s) (init : motive [] s₀)
    (step : ∀ {tr s e s'}, Run next s₀ tr s → motive tr s → Step next s e s' →
      motive (tr ++ [e]) s') : motive tr s := by
  induction h with
  | nil => exact init
  | snoc hrun hstep ih => exact step hrun ih hstep

/-- If every step of a system is one of another system, observed as the same event,
    whenever their states are related, then so is every run. -/
theorem Run.simulates {β τ : Type*} {next' : τ → β → Option (τ × ε)} {R : σ → τ → Prop}
    {t₀ : τ} (h : Run next s₀ tr s) (hR : R s₀ t₀)
    (hstep : ∀ {s t e s'}, R s t → Step next s e s' → ∃ t', Step next' t e t' ∧ R s' t') :
    ∃ t, Run next' t₀ tr t ∧ R s t := by
  refine h.invariant (motive := fun tr s => ∃ t, Run next' t₀ tr t ∧ R s t) ⟨t₀, .nil, hR⟩ ?_
  rintro tr s e s' - ⟨t, hrun, hR⟩ hs
  obtain ⟨t', hs', hR'⟩ := hstep hR hs
  exact ⟨t', hrun.snoc hs', hR'⟩

/-- A run is made of a run for any first part of its trace, and one for the rest. -/
theorem Run.split {pre post : List ε} (h : Run next s₀ (pre ++ post) t) :
    ∃ m, Run next s₀ pre m ∧ Run next m post t := by
  induction post using List.reverseRecOn generalizing t with
  | nil => exact ⟨t, by simpa using h, .nil⟩
  | append_singleton post e ih =>
    rw [← List.append_assoc] at h
    generalize htr : pre ++ post ++ [e] = tr at h
    cases h with
    | nil => simp at htr
    | @snoc tr' s _ e' hrun hstep =>
      obtain ⟨rfl, he⟩ := List.append_inj' htr rfl
      obtain rfl := List.singleton_inj.1 he
      obtain ⟨m, hpre, hpost⟩ := ih hrun
      exact ⟨m, hpre, hpost.snoc hstep⟩

/-- A run begins with a step, and goes on from there. -/
theorem Run.uncons {post : List ε} (h : Run next s₀ (e :: post) t) :
    ∃ m, Step next s₀ e m ∧ Run next m post t := by
  obtain ⟨m, hone, hpost⟩ := Run.split (List.singleton_append ▸ h)
  generalize htr : [e] = tr at hone
  cases hone with
  | nil => simp at htr
  | @snoc tr' s _ e' hrun hstep =>
    obtain ⟨rfl, he⟩ := List.append_inj' (show [] ++ [e] = tr' ++ [e'] from htr) rfl
    obtain rfl := List.singleton_inj.1 he
    generalize htr' : [] = tr at hrun
    cases hrun with
    | nil => exact ⟨m, hstep, hpost⟩
    | snoc => simp at htr'

/-- A run is cut at an event: a run before, a step, and a run after. -/
theorem Run.cut {pre post : List ε} (h : Run next s₀ (pre ++ e :: post) t) :
    ∃ m m', Run next s₀ pre m ∧ Step next m e m' ∧ Run next m' post t := by
  obtain ⟨m, hpre, hrest⟩ := h.split
  obtain ⟨m', hstep, hpost⟩ := hrest.uncons
  exact ⟨m, m', hpre, hstep, hpost⟩

end Trace
