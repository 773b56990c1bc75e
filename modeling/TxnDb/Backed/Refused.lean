import TxnDb.Serializability

/-!
# Commits that fail with nothing applied

A commit may be rejected with nothing applied (`Refused`), whether or not it is in conflict: the
invariants of the database allow it (`Reached.refused`), as its handle is where a conflict leaves
it, and nothing else has changed.
-/

namespace TxnDb

open Mvcc

variable {tr : List Event} {s t : Sys} {h : ℕ} {a : Attempt} {e : Event}

/-- The attempt of a handle fails with `err`, which is not about durability: nothing was applied. -/
inductive Refused (s : Sys) : Event → Sys → Prop
  | mk {h : ℕ} {a : Attempt} {err : TxnError} (hh : s.handle h = .committing a .allocated)
      (happ : ¬(Stage.decided (.error err)).Applied) :
    Refused s (.conflicted a err) (s.set h (.committing a (.decided (.error err))) s.inner)

namespace Refused

/-- What does not depend on the stage of an attempt is as before. -/
theorem handle_congr {α : Type*} (f : Handle → α) (hrej : Refused s e t)
    (hf : ∀ a stage stage', f (.committing a stage) = f (.committing a stage')) (h : ℕ) :
    f (t.handle h) = f (s.handle h) := by
  cases hrej with
  | mk hh => exact Sys.handle_set_congr f (Sys.ne_closed hh rfl) (by rw [hh]; exact hf _ _ _) h

theorem inner_eq (hrej : Refused s e t) : t.inner = s.inner := by
  cases hrej with
  | mk => rfl

theorem length_eq (hrej : Refused s e t) : t.handles.length = s.handles.length := by
  cases hrej with
  | mk => exact Sys.length_handles_set

/-- A handle is as before, or at the end of its attempt. -/
theorem handle_cases (hrej : Refused s e t) (h : ℕ) :
    t.handle h = s.handle h ∨ ∃ a err, s.handle h = .committing a .allocated ∧
      t.handle h = .committing a (.decided (.error err)) ∧
        ¬(Stage.decided (.error err)).Applied := by
  cases hrej with
  | @mk h' a err hh happ =>
    rcases eq_or_ne h h' with rfl | hne
    · exact .inr ⟨a, err, hh, Sys.handle_set_self (Sys.ne_closed hh rfl), happ⟩
    · exact .inl (Sys.handle_set_of_ne hne)

/-- The trace goes on with an event that is none of those that matter. -/
theorem trace_eq (tr : List Event) (hrej : Refused s e t) :
    e.extend (history tr) = history tr ∧ e.issue (issued tr) = issued tr ∧
      allocations (tr ++ [e]) = allocations tr ∧ cycle (tr ++ [e]) = cycle tr ++ [e] ∧
      (∀ h, e.op h = none) ∧ ∀ h kind r, e ≠ .began h kind r := by
  cases hrej with
  | mk => exact ⟨rfl, rfl, allocations_append, cycle_append_of_ne nofun, fun _ => rfl, nofun⟩

theorem safe {w : ℕ} (hrej : Refused s e t) (hw : s.Safe w) : t.Safe w := by
  refine ⟨hrej.inner_eq ▸ hw.1, fun h r hr => hw.2 h r ?_⟩
  rwa [hrej.handle_congr Handle.readTs fun _ _ _ => rfl] at hr

theorem past (hrej : Refused s e t) (hp : (s.handle h).Past a) : (t.handle h).Past a := by
  rwa [hrej.handle_congr (Handle.Past a) fun _ _ _ => rfl]

theorem inv (hrej : Refused s e t) (hinv : Inv tr s) : Inv (tr ++ [e]) t := by
  obtain ⟨hhist, hissue, hall, -⟩ := hrej.trace_eq tr
  have hhist : history (tr ++ [e]) = history tr := by rw [history_append_singleton, hhist]
  have hissue : issued (tr ++ [e]) = issued tr := by rw [issued_append_singleton, hissue]
  have hc : Coordinated t (issued tr) := by
    cases hrej with
    | mk hh =>
      exact hinv.toCoordinated.set (Sys.ne_closed hh rfl) (by rw [hh]; rfl) (by rw [hh]; rfl) rfl
  refine ⟨hissue ▸ hc, hissue ▸ hall ▸ hinv.issued_le, fun sweep hs => hrej.safe
    (hinv.sweeps sweep ?_), fun k => ?_, hhist ▸ hinv.valid, fun b hb => ?_, fun b hb => ?_,
    fun {h b stage} hh => ?_, fun b hb => ?_, hhist ▸ hinv.nodup_id⟩
  · cases hrej with
    | mk => exact hs
  · obtain ⟨w, hw, hp⟩ := hinv.chains k
    exact ⟨w, hrej.safe hw, by rwa [hhist, hrej.inner_eq]⟩
  · rw [hrej.inner_eq]
    exact hinv.read_le b (hhist ▸ hb)
  · rw [hissue]
    exact hinv.commit_le b (hhist ▸ hb)
  · rw [hhist]
    -- the attempt that fails was not applied
    rcases hrej.handle_cases h with heq | ⟨b', err, hh', heq, happ⟩
    · exact hinv.attempts (heq ▸ hh)
    · obtain ⟨rfl, rfl⟩ := Handle.committing.inj (heq.symm.trans hh)
      exact hinv.attempt_of_iff hh' (iff_of_false happ id) rfl
  · rw [hrej.length_eq]
    exact ⟨(hinv.past b (hhist ▸ hb)).1, hrej.past (hinv.past b (hhist ▸ hb)).2⟩

theorem named (hrej : Refused s e t) (hn : Named tr s) : Named (tr ++ [e]) t := by
  obtain ⟨-, -, -, hcycle, -, hbegan⟩ := hrej.trace_eq tr
  have hmem : ∀ {e'}, e' ≠ e → (e' ∈ tr ++ [e] ↔ e' ∈ tr) := mem_append_singleton_of_ne
  have hlt := fun {h kind r} (hb : .began h kind r ∈ tr ++ [e]) =>
    (hmem (hbegan h kind r).symm).1 hb
  have hmono : ∀ {e'}, e' ∈ tr → e' ∈ tr ++ [e] := List.mem_append_left _
  refine ⟨fun hb => hrej.length_eq ▸ hn.lt (hlt hb), fun hb hb' => hn.unique (hlt hb) (hlt hb'),
    fun {h r} hr => ?_, fun hg => ?_, fun hw => ?_, fun hc => ?_, fun {h r} hro => ?_⟩
  · rw [hrej.handle_congr Handle.readTs fun _ _ _ => rfl] at hr
    obtain ⟨kind, hb⟩ := hn.began hr
    exact ⟨kind, hcycle ▸ List.mem_append_left _ hb⟩
  · rw [hmem (by cases hrej; exact nofun)] at hg
    exact (hn.got hg).imp fun _ => hmono
  · rw [hmem (by cases hrej; exact nofun)] at hw
    obtain ⟨kind, r, hb⟩ := hn.wrote hw
    exact ⟨kind, r, hmono hb⟩
  · rw [hmem (by cases hrej; exact nofun)] at hc
    obtain ⟨⟨kind, hb⟩, hlt, hp⟩ := hn.committed hc
    exact ⟨⟨kind, hmono hb⟩, hrej.length_eq ▸ hlt, hrej.past hp⟩
  · rw [hmem (by cases hrej; exact nofun)] at hro
    obtain ⟨⟨kind, hb⟩, hlt, hd⟩ := hn.readOnly hro
    refine ⟨⟨kind, hmono hb⟩, hrej.length_eq ▸ hlt, ?_⟩
    rwa [hrej.handle_congr Handle.Done fun _ _ _ => rfl]

theorem sessions (hrej : Refused s e t) (hsess : Sessions tr s) : Sessions (tr ++ [e]) t := by
  obtain ⟨hhist, -, -, hcycle, hop, hbegan⟩ := hrej.trace_eq tr
  have hhist : history (tr ++ [e]) = history tr := by rw [history_append_singleton, hhist]
  have hmem : ∀ {e'}, e' ≠ e → (e' ∈ tr ++ [e] ↔ e' ∈ tr) := mem_append_singleton_of_ne
  have hsession : ∀ h, session (tr ++ [e]) h = session tr h := fun h =>
    session_append_of_none (hop h)
  have hser : ∀ h, Serializable (tr ++ [e]) h ↔ Serializable tr h := fun h =>
    serializable_append (hbegan h)
  have hgot : ∀ {h r k v own}, Event.got h r k v own ≠ e := by
    cases hrej
    exact nofun
  refine ⟨fun hb => ?_, fun hg => ?_, fun h => ?_, fun {b} hc => ?_, fun hro => ?_, ?_⟩
  · rw [hcycle, mem_append_singleton_of_ne (hbegan _ _ _).symm] at hb
    rw [hhist, hsession, hrej.inner_eq]
    exact hsess.replays hb
  · rw [hcycle, mem_append_singleton_of_ne hgot] at hg
    rw [hhist, hrej.inner_eq]
    exact hsess.reads hg
  · rcases hrej.handle_cases h with heq | ⟨b, err, hh, heq, -⟩
    · rw [heq]
      exact (hsess.follows h).congr (hsession h) (hser h)
    · rw [heq]
      exact (hsess.program hh).congr (hsession h) (hser h)
  · rw [hmem (by cases hrej; exact nofun)] at hc
    exact (hsess.programs hc).congr (hsession b.id) (hser b.id)
  · rw [hmem (by cases hrej; exact nofun)] at hro
    rw [hsession]
    exact hsess.writesNothing hro
  · intro h k
    rw [hsession, hsess.fresh]
    exact exists_congr fun r => exists_congr fun v => (hmem hgot).symm

theorem logged (hrej : Refused s e t) (hl : Logged tr s) (hlog : s.inner.log = none) :
    Logged (tr ++ [e]) t := by
  obtain ⟨hhist, -⟩ := hrej.trace_eq tr
  have hhist : history (tr ++ [e]) = history tr := by rw [history_append_singleton, hhist]
  have hnone : ∀ {log}, t.inner.log ≠ some log := fun {log} => by
    rw [hrej.inner_eq, hlog]
    exact nofun
  refine ⟨fun h => absurd h hnone, fun h => absurd h hnone, fun b hb => ?_, fun b hb => ?_⟩
  · obtain ⟨a, ha, horigin⟩ := hl.origin b (hhist ▸ hb)
    exact ⟨a, List.mem_append_left _ ha, horigin⟩
  · exact hl.nodupKeys b (hhist ▸ hb)

end Refused

/-- A commit that fails with nothing applied preserves the invariants, in memory. -/
theorem Reached.refused (hr : Reached tr s) (hrej : Refused s e t) (hlog : s.inner.log = none) :
    Reached (tr ++ [e]) t where
  toInv := hrej.inv hr.toInv
  toNamed := hrej.named hr.toNamed
  toSessions := hrej.sessions hr.toSessions
  toLogged := hrej.logged hr.toLogged hlog

end TxnDb
