import TxnDb.Quiet.Bounded

/-!
# A transaction alone

Since a transaction began in a quiet database, no other commit has taken a step (`Alone`): the
chains have not changed, or only by its own writes, wherever it stands.
-/

namespace TxnDb

open Mvcc

variable {tr : List Event} {s s' t t' : Sys} {h h' r : ℕ} {e : Event} {a : Attempt} {k : Key}
  {c : List Version} {store : MemoryStore}

/-- The event is no failure, and no step of a commit but that of the handle `h`. -/
def Event.Alone (h : ℕ) : Event → Prop
  | .allocated a | .committed a | .conflicted a _ | .appending a | .appended a none
  | .reported a => a.id = h
  | .appended _ (some _) | .opened _ => False
  | _ => True

/-- Nothing is written since `s`. -/
def Unchanged (s t : Sys) : Prop :=
  ∀ k, (∀ v ∈ t.inner.store.chain k, v.commitTs ≤ s.inner.readTs) ∧
    lastValue (t.inner.store.chain k) = lastValue (s.inner.store.chain k)

/-- What the handle `h` wrote, in the trace `tr`, is written since `s`, and nothing else. -/
def Written (s : Sys) (h : ℕ) (tr : List Event) (t : Sys) : Prop :=
  ∀ k, lastValue (t.inner.store.chain k) =
    (buffered (session tr h) k).getD (lastValue (s.inner.store.chain k))

/-- How far the handle `h` has come, having begun in `s`. -/
def Handle.Alone (s : Sys) (h : ℕ) (tr : List Event) (t : Sys) : Handle → Prop
  | .reading _ | .closed => True
  | .active tx => Unchanged s t ∧ tx.readTs = s.inner.readTs ∧
      ∀ k, buffered (session tr h) k = tx.writes.lookup k
  | .committing a .allocated => Unchanged s t ∧ a.readTs = s.inner.readTs ∧
      a.writes.NodupKeys ∧ ∀ k, buffered (session tr h) k = a.writes.dlookup k
  | .committing _ .applied | .committing _ .appending => Written s h tr t
  | .committing _ (.decided result) | .finished _ result =>
      (∃ c, result = .ok c) ∧ Written s h tr t

/-- The handle `h` began in `s`, and has been alone to commit since. -/
structure Alone (s : Sys) (h : ℕ) (tr : List Event) (t : Sys) : Prop where
  bounded : Bounded (s.inner.readTs + allocations tr) t
  lt : h < t.handles.length
  others : ∀ h', h' ≠ h → (t.handle h').commitTs = none
  stage : (t.handle h).Alone s h tr t
  conflicted : ∀ a e, .conflicted a e ∉ tr
  returned : ∀ result, .returned h result ∈ tr →
    t.handle h = .closed ∧ (∃ c, result = .ok c) ∧ Written s h tr t

theorem Unchanged.step (hu : Unchanged s t) (hstep : Step t e t') (hc : ∀ a, e ≠ .committed a)
    (hopen : ∀ L, e ≠ .opened L) : Unchanged s t' := fun k => by
  obtain ⟨hsub, hlast⟩ := hstep.chain_subset hc hopen k
  exact ⟨fun v hv => (hu k).1 v (hsub hv), hlast.trans (hu k).2⟩

theorem Written.step (hw : Written s h tr t) (hstep : Step t e t') (hc : ∀ a, e ≠ .committed a)
    (hopen : ∀ L, e ≠ .opened L) (hop : e.op h = none) : Written s h (tr ++ [e]) t' := fun k => by
  rw [(hstep.chain_subset hc hopen k).2, session_append_of_none hop, hw k]

/-- A transaction that begins when nothing is written since is not in conflict. -/
theorem Unchanged.tryCommit (hu : Unchanged s t) (hr : a.readTs = s.inner.readTs) :
    ∃ store, t.inner.store.tryCommit a.readTs a.commitTs a.writes a.reads = .ok store := by
  rcases t.inner.store.tryCommit_commits a.readTs a.commitTs a.writes a.reads with
    ⟨k, hk, -⟩ | ⟨store, -, hok, -⟩
  · rw [MemoryStore.conflict?_eq_none fun k v hv => hr ▸ (hu k).1 v hv] at hk
    cases hk
  · exact ⟨store, hok⟩

theorem Unchanged.not_conflicted {err : TxnError} (hu : Unchanged s t)
    (hr : a.readTs = s.inner.readTs) :
    t.inner.store.tryCommit a.readTs a.commitTs a.writes a.reads ≠ .error err := by
  obtain ⟨store, hok⟩ := hu.tryCommit hr
  simp [hok]

/-- A commit writes what its handle buffered. -/
theorem Unchanged.committed (hu : Unchanged s t) (hstep : Step t (.committed a) t')
    (hnd : a.writes.NodupKeys) (hw : ∀ k, buffered (session tr h) k = a.writes.dlookup k) :
    Written s h (tr ++ [.committed a]) t' := fun k => by
  rw [hstep.chain_committed, session_append_of_none rfl, hw, List.lookupAll_eq_dlookup k hnd]
  cases a.writes.dlookup k with
  | none => simpa using (hu k).2
  | some v => simp [lastValue]

/-- A step that commits nothing, and is not of `h`, leaves it where it was. -/
theorem Handle.Alone.step {x : Handle} (hx : x.Alone s h tr t) (hstep : Step t e t')
    (hc : ∀ a, e ≠ .committed a) (hopen : ∀ L, e ≠ .opened L) (hop : e.op h = none) :
    x.Alone s h (tr ++ [e]) t' := by
  have hsession : session (tr ++ [e]) h = session tr h := session_append_of_none hop
  cases x with
  | reading | closed => trivial
  | active tx => exact ⟨hx.1.step hstep hc hopen, hx.2.1, hsession.symm ▸ hx.2.2⟩
  | finished r result => exact ⟨hx.1, hx.2.step hstep hc hopen hop⟩
  | committing a stage =>
    cases stage with
    | allocated =>
      exact ⟨hx.1.step hstep hc hopen, hx.2.1, hx.2.2.1, hsession.symm ▸ hx.2.2.2⟩
    | applied | appending => exact Written.step hx hstep hc hopen hop
    | decided => exact ⟨hx.1, hx.2.step hstep hc hopen hop⟩

/-- A handle that was dropped stays so. -/
theorem Step.closed (hstep : Step s e s') (hclosed : s.handle h = .closed)
    (hlt : h < s.handles.length) : s'.handle h = .closed := by
  have hset : ∀ {i x inner}, s.handle i ≠ .closed → (s.set i x inner).handle h = .closed :=
    fun {i x inner} hi => by
      have hne : h ≠ i := by rintro rfl; exact hi hclosed
      rw [Sys.handle_set_of_ne hne, hclosed]
  cases hstep with
  | began => rwa [Sys.handle_add, if_neg hlt.ne]
  | gotSnapshot | swept | pruned => exact hclosed
  | gotStore hh | gotOwn hh | wrote hh | readOnly hh | allocated hh | returned hh
  | droppedSnapshot hh | droppedTransaction hh | reported hh | committed hh | conflicted hh
  | appending hh | appended hh | appendFailed hh => exact hset (Sys.ne_closed hh rfl)
  | opened => exact Sys.handle_map_closed _ _ _

namespace Alone

theorem stage_eq (ha : Alone s h tr t) {x : Handle} (hh : t.handle h = x) : x.Alone s h tr t :=
  hh ▸ ha.stage

/-- Only the handle `h` is in a commit. -/
theorem eq_of_committing (ha : Alone s h tr t) {stage : Stage}
    (hh : t.handle h' = .committing a stage) : h' = h := by
  by_contra hne
  have hnone := ha.others h' hne
  rw [hh] at hnone
  cases hnone

theorem others_step (ha : Alone s h tr t) (hstep : Step t e t') (hown : e.Alone h) (h' : ℕ)
    (hne : h' ≠ h) : (t'.handle h').commitTs = none := by
  have hset : ∀ {i x inner}, t.handle i ≠ .closed → (i ≠ h → x.commitTs = none) →
      ((t.set i x inner).handle h').commitTs = none := fun hi hx => by
    rw [Sys.handle_set hi]
    split_ifs with heq
    · exact hx (heq ▸ hne)
    · exact ha.others h' hne
  cases hstep with
  | began kind =>
    rw [Sys.handle_add]
    split_ifs
    · cases kind <;> rfl
    · exact ha.others h' hne
  | gotSnapshot | swept | pruned => exact ha.others h' hne
  | gotStore hh | gotOwn hh | wrote hh | readOnly hh | reported hh | returned hh
  | droppedSnapshot hh | droppedTransaction hh => exact hset (Sys.ne_closed hh rfl) fun _ => rfl
  | allocated hh hid => exact hset (Sys.ne_closed hh rfl) fun hi => absurd (hid ▸ hown) hi
  | committed hh | conflicted hh | appending hh | appended hh | appendFailed hh =>
    exact hset (Sys.ne_closed hh rfl) fun hi => absurd (ha.eq_of_committing hh) hi
  | opened => exact absurd hown id

/-- What a step makes of the handle `h`. -/
theorem stage_step (ha : Alone s h tr t) (hstep : Step t e t') (hown : e.Alone h) :
    (t'.handle h).Alone s h (tr ++ [e]) t' := by
  have hany := hstep
  have hopen : ∀ L, e ≠ .opened L := by rintro L rfl; exact hown
  -- the handle is the one that changes, or it is as before
  have hset : ∀ {i x inner}, Step t e (t.set i x inner) → t.handle i ≠ .closed →
      (∀ a, e ≠ .committed a) → (i ≠ h → e.op h = none) →
      (i = h → x.Alone s h (tr ++ [e]) (t.set i x inner)) →
      ((t.set i x inner).handle h).Alone s h (tr ++ [e]) (t.set i x inner) :=
    fun hstep hi hc hop hx => by
      rw [Sys.handle_set hi]
      split_ifs with heq
      · exact hx heq.symm
      · exact ha.stage.step hstep hc hopen (hop (Ne.symm heq))
  cases hstep with
  | began kind =>
    rw [Sys.handle_add, if_neg ha.lt.ne]
    exact ha.stage.step hany (by simp) hopen rfl
  | @gotSnapshot i _ _ hh =>
    by_cases heq : i = h
    · rw [← heq, hh]
      trivial
    · exact ha.stage.step hany (by simp) hopen (if_neg heq)
  | gotStore hh | gotOwn hh =>
    refine hset hany (Sys.ne_closed hh rfl) (by simp) (fun hi => if_neg hi) fun heq => ?_
    subst heq
    obtain ⟨hu, hr, hw⟩ := ha.stage_eq hh
    exact ⟨hu, hr, fun k' => (buffered_got k').trans (hw k')⟩
  | wrote hh =>
    refine hset hany (Sys.ne_closed hh rfl) (by simp) (fun hi => if_neg hi) fun heq => ?_
    subst heq
    obtain ⟨hu, hr, hw⟩ := ha.stage_eq hh
    exact ⟨hu, hr, buffered_wrote hw⟩
  | @readOnly i tx hh hnil =>
    refine hset hany (Sys.ne_closed hh rfl) (by simp) (fun _ => rfl) fun heq => ?_
    obtain ⟨hu, -, hw⟩ := ha.stage_eq (heq ▸ hh)
    refine ⟨⟨_, rfl⟩, fun k => ?_⟩
    rw [session_append_of_none rfl, hw, AList.lookup, hnil]
    exact (hu k).2
  | @allocated i tx a hh hid hr hc hw =>
    refine hset hany (Sys.ne_closed hh rfl) (by simp) (fun _ => rfl) fun heq => ?_
    obtain ⟨hu, hread, hbuf⟩ := ha.stage_eq (heq ▸ hh)
    have hnd : a.writes.NodupKeys := (List.perm_nodupKeys hw).2 tx.writes.nodupKeys
    refine ⟨hu, hr.trans hread, hnd, fun k => ?_⟩
    rw [session_append_of_none rfl, hbuf]
    exact (List.perm_dlookup k hnd hw).symm
  | @committed i a store stage hh hok hstage =>
    obtain rfl := ha.eq_of_committing hh
    obtain ⟨hu, -, hnd, hw⟩ := ha.stage_eq hh
    have hwritten := hu.committed hany hnd hw
    rw [Sys.handle_set_self (Sys.ne_closed hh rfl), hstage]
    split_ifs
    · exact hwritten
    · exact ⟨⟨_, rfl⟩, hwritten⟩
  | @conflicted i a err hh herr =>
    obtain rfl := ha.eq_of_committing hh
    obtain ⟨hu, hr, -⟩ := ha.stage_eq hh
    exact absurd herr (hu.not_conflicted hr)
  | @appending i a _ hh =>
    refine hset hany (Sys.ne_closed hh rfl) (by simp) (fun _ => rfl) fun heq => ?_
    have hw : Written s h tr t := ha.stage_eq (x := .committing a .applied) (heq ▸ hh)
    exact hw.step hany (by simp) hopen rfl
  | @appended i a _ hh =>
    refine hset hany (Sys.ne_closed hh rfl) (by simp) (fun _ => rfl) fun heq => ?_
    have hw : Written s h tr t := ha.stage_eq (x := .committing a .appending) (heq ▸ hh)
    exact ⟨⟨_, rfl⟩, hw.step hany (by simp) hopen rfl⟩
  | appendFailed => exact absurd hown id
  | reported hh =>
    refine hset hany (Sys.ne_closed hh rfl) (by simp) (fun _ => rfl) fun heq => ?_
    obtain ⟨hok, hw⟩ := ha.stage_eq (heq ▸ hh)
    exact ⟨hok, hw.step hany (by simp) hopen rfl⟩
  | returned hh | droppedSnapshot hh | droppedTransaction hh =>
    exact hset hany (Sys.ne_closed hh rfl) (by simp) (fun _ => rfl) fun _ => trivial
  | swept | pruned => exact ha.stage.step hany (by simp) hopen rfl
  | opened => exact absurd hown id

theorem step (ha : Alone s h tr t) (hstep : Step t e t') (hown : e.Alone h)
    (hlt : s.inner.readTs + allocations (tr ++ [e]) < 2 ^ 64) : Alone s h (tr ++ [e]) t' := by
  have hopen : ∀ L, e ≠ .opened L := by rintro L rfl; exact hown
  rw [allocations_append, ← Nat.add_assoc] at hlt
  refine ⟨?_, ha.lt.trans_le hstep.length_le, fun h' => ha.others_step hstep hown h',
    ha.stage_step hstep hown, fun a err hc => ?_, fun result hret => ?_⟩
  · rw [allocations_append, ← Nat.add_assoc]
    exact ha.bounded.step hstep hlt hopen
  · rcases List.mem_append.1 hc with hc | hc
    · exact ha.conflicted a err hc
    · obtain rfl := List.mem_singleton.1 hc
      cases hstep with
      | conflicted hh herr =>
        obtain rfl := ha.eq_of_committing hh
        obtain ⟨hu, hr, -⟩ := ha.stage_eq hh
        exact absurd herr (hu.not_conflicted hr)
  · rcases List.mem_append.1 hret with hret | hret
    · obtain ⟨hclosed, hok, hw⟩ := ha.returned result hret
      -- once the handle is closed, nobody is there to commit
      have hc : ∀ a, e ≠ .committed a := by
        rintro a rfl
        cases hstep with
        | committed hh =>
          rw [ha.eq_of_committing hh, hclosed] at hh
          cases hh
      have hop := hstep.op_eq_none (by rw [hclosed]; exact nofun) (by rw [hclosed]; exact nofun)
      exact ⟨hstep.closed hclosed ha.lt, hok, hw.step hstep hc hopen hop⟩
    · obtain rfl := List.mem_singleton.1 hret
      have hany := hstep
      cases hstep with
      | returned hh =>
        obtain ⟨hok, hw⟩ := ha.stage_eq hh
        exact ⟨Sys.handle_set_self (Sys.ne_closed hh rfl), hok, hw.step hany nofun hopen rfl⟩

/-- A handle begins with no commit in flight. -/
theorem began (hb : Bounded s.inner.readTs s) (hq : s.Quiescent) {kind : Kind}
    (hstep : Step s (.began h kind r) t) (hlt : s.inner.readTs < 2 ^ 64) : Alone s h [] t := by
  have hbounded := hb.step hstep hlt nofun
  have hstore : t.inner.store = s.inner.store := by cases hstep; rfl
  have hu : Unchanged s t := fun k => by
    rw [hstore]
    exact ⟨hb.versions_le k, rfl⟩
  cases hstep with
  | began =>
    refine ⟨hbounded, by simp [Sys.add], fun h' hne => ?_, ?_, nofun, nofun⟩
    · rw [Sys.handle_add, if_neg hne]
      cases hc : (s.handle h').commitTs with
      | none => rfl
      | some c => exact absurd ⟨h', hc⟩ (hq.not_holds c)
    · rw [Sys.handle_add, if_pos rfl]
      cases kind with
      | snapshot => trivial
      | transaction | serializable => exact ⟨hu, rfl, fun k => rfl⟩

theorem of_run (ha : Alone s h [] t) (hrun : Run t tr t') (hown : ∀ e ∈ tr, e.Alone h)
    (hlt : s.inner.readTs + allocations tr < 2 ^ 64) : Alone s h tr t' := by
  refine hrun.invariant (motive := fun tr t' => (∀ e ∈ tr, e.Alone h) →
    s.inner.readTs + allocations tr < 2 ^ 64 → Alone s h tr t') (fun _ _ => ha)
    (fun {tr t e t'} _ ih hstep hown hlt => ?_) hown hlt
  refine Alone.step (ih (fun e he => hown e (List.mem_append_left _ he)) ?_) hstep
    (hown e (by simp)) hlt
  rw [allocations_append] at hlt
  omega

/-- Once the handle is dropped, the watermark has caught up. -/
theorem get_eq (ha : Alone s h tr t) (hclosed : t.handle h = .closed) (k : Key) :
    t.inner.store.get k t.inner.readTs = lastValue (t.inner.store.chain k) := by
  have hholds : ∀ c, ¬t.Holds c := by
    rintro c ⟨h', hc⟩
    by_cases heq : h' = h
    · rw [heq, hclosed] at hc
      cases hc
    · rw [ha.others h' heq] at hc
      cases hc
  have hread : t.inner.readTs = _ := ha.bounded.tracks.readTs_eq hholds
  exact MemoryStore.get_eq_lastValue fun v hv => hread ▸ ha.bounded.versions_le k v hv

end Alone

end TxnDb
