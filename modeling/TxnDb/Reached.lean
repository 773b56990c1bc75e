import TxnDb.Logged

/-!
# Every run

The invariants of the system (`Reached`) hold in every run from a new database, in
memory or durable, across any number of crashes (`reached_of_run`).
-/

namespace TxnDb

open Mvcc

variable {tr tr' : List Event} {s₀ s s' t : Sys} {e : Event}

/-- The invariants of the system. -/
structure Reached (tr : List Event) (s : Sys) : Prop extends Traced tr s, Logged tr s

/-- If the database was opened again, the lengths of its commits fit. -/
def Recoverable (tr : List Event) : Prop :=
  (∃ L, .opened L ∈ tr) → ∀ a, .committed a ∈ tr → Fits a.writes

theorem Recoverable.of_append (h : Recoverable (tr ++ tr')) : Recoverable tr :=
  fun ⟨L, hL⟩ a ha => h ⟨L, List.mem_append_left _ hL⟩ a (List.mem_append_left _ ha)

/-- A new database, in memory or durable. -/
def Sys.Fresh (s : Sys) : Prop := s = .new ∨ s = .create

theorem reached_nil (h₀ : s₀.Fresh) : Reached [] s₀ := by
  have hchain : ∀ k, s₀.inner.store.chain k = [] := by
    rcases h₀ with rfl | rfl <;> exact fun k => MemoryStore.chain_new
  have hlog : ∀ {log}, s₀.inner.log = some log → log = ⟨⟨[], []⟩⟩ := by
    rcases h₀ with rfl | rfl <;> rintro log ⟨⟩
    rfl
  have hinit : Inv [] s₀ := by
    rcases h₀ with rfl | rfl
    · exact Inv.init (.inl rfl) hchain
    · exact Inv.init (.inr rfl) hchain
  have hclosed : ∀ h, s₀.handle h = .closed := by
    rcases h₀ with rfl | rfl <;> exact fun _ => rfl
  refine ⟨⟨hinit, named_nil (by rcases h₀ with rfl | rfl <;> rfl),
      ⟨nofun, nofun, fun h => ?_, nofun, nofun, ?_⟩⟩,
    ⟨fun hl => ?_, nofun, nofun, nofun⟩⟩
  · rw [hclosed]
    trivial
  · exact iff_of_false id fun ⟨_, _, h⟩ => absurd h List.not_mem_nil
  · obtain rfl := hlog hl
    exact ⟨[], [], rfl, rfl, List.nodup_nil, nofun, nofun, nofun, nofun⟩

/-- Every step preserves the invariants. -/
theorem Reached.step (hr : Reached tr s) (hstep : Step s e s')
    (hlt : allocations (tr ++ [e]) < 2 ^ 64)
    (hfit : (∃ L, e = .opened L) → ∀ a, .committed a ∈ tr → Fits a.writes) :
    Reached (tr ++ [e]) s' := by
  have hinv : Inv (tr ++ [e]) s' := by
    by_cases hopen : ∃ L, e = .opened L
    · obtain ⟨L, rfl⟩ := hopen
      cases hstep with
      | opened hlog hsub hperm hopen hrec =>
        obtain ⟨M, rfl, hnd, hmem, hopen', hrec'⟩ :=
          hr.toLogged.crash hr.toInv (hfit ⟨_, rfl⟩) hlog hsub hperm
        rw [hopen] at hopen'
        rw [hrec] at hrec'
        obtain rfl := Except.ok.inj hopen'
        obtain rfl := Except.ok.inj hrec'
        exact hr.toInv.recovered (fun a ha => (hmem a ha).1) hnd
          (fun a ha => hr.nodupKeys a (hmem a ha).1) _
    · exact hr.toInv.step hstep hlt (not_exists.1 hopen)
  exact ⟨⟨hinv, hr.toNamed.step hr.toInv hstep,
    hr.toSessions.step hr.toNamed hr.toInv hstep hlt⟩, hr.toLogged.step hr.toInv hstep hfit⟩

/-- The invariants hold of every run that goes on, with any relation that every
    step preserves, given the invariants. -/
theorem Reached.and_invariant {motive : List Event → Sys → Prop} (hr : Reached tr s)
    (hrun : Run s tr' t) (hlt : allocations (tr ++ tr') < 2 ^ 64) (hfit : Recoverable (tr ++ tr'))
    (init : motive tr s) (step : ∀ {tr s e s'}, Reached tr s → Reached (tr ++ [e]) s' →
      motive tr s → Step s e s' → motive (tr ++ [e]) s') :
    Reached (tr ++ tr') t ∧ motive (tr ++ tr') t := by
  refine hrun.invariant (motive := fun tr' t => allocations (tr ++ tr') < 2 ^ 64 →
    Recoverable (tr ++ tr') → Reached (tr ++ tr') t ∧ motive (tr ++ tr') t)
    (fun _ _ => by rw [List.append_nil]; exact ⟨hr, init⟩)
    (fun {tr' t e t'} _ ih hstep hlt hfit => ?_) hlt hfit
  rw [← List.append_assoc] at hlt hfit ⊢
  obtain ⟨hr, hm⟩ := ih (allocations_lt_of_append hlt) hfit.of_append
  have hr' := hr.step hstep hlt fun ⟨L, hL⟩ a ha =>
    hfit ⟨L, by simp [hL]⟩ a (List.mem_append_left _ ha)
  exact ⟨hr', step hr hr' hm hstep⟩

/-- A relation that every step preserves, given the invariants, holds of every run
    that goes on. -/
theorem Reached.invariant {motive : List Event → Sys → Prop} (hr : Reached tr s)
    (hrun : Run s tr' t) (hlt : allocations (tr ++ tr') < 2 ^ 64) (hfit : Recoverable (tr ++ tr'))
    (init : motive tr s) (step : ∀ {tr s e s'}, Reached tr s → Reached (tr ++ [e]) s' →
      motive tr s → Step s e s' → motive (tr ++ [e]) s') : motive (tr ++ tr') t :=
  (hr.and_invariant hrun hlt hfit init step).2

/-- The invariants hold of every run that goes on. -/
theorem Reached.run (hr : Reached tr s) (hrun : Run s tr' t)
    (hlt : allocations (tr ++ tr') < 2 ^ 64) (hfit : Recoverable (tr ++ tr')) :
    Reached (tr ++ tr') t :=
  (hr.and_invariant (motive := fun _ _ => True) hrun hlt hfit trivial fun _ _ _ _ => trivial).1

/-- The invariants hold of every run of a new database. -/
theorem reached_of_run (h₀ : s₀.Fresh) (hrun : Run s₀ tr s) (hlt : allocations tr < 2 ^ 64)
    (hfit : Recoverable tr) : Reached tr s := (reached_nil h₀).run hrun hlt hfit

/-- The invariants hold of every run of a database in memory. -/
theorem reached_of_run_new (hrun : Run .new tr s) (hlt : allocations tr < 2 ^ 64) : Reached tr s :=
  reached_of_run (.inl rfl) hrun hlt fun ⟨L, hL⟩ => absurd hL ((log_eq_none_of_run hrun).2 L)

end TxnDb
