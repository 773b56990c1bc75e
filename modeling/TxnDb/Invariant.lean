import TxnDb.Clients

/-!
# The invariant of the system

The invariant relates the state of the database to the history so far (`Inv`):

* the history is validated, every attempt having been validated when it was
  applied, and nothing in it was read above the watermark, or committed above
  the last timestamp handed out;
* the chain of every key is what is left of its versions in the history after
  prunes at safe timestamps;
* an attempt in progress is in the history iff its writes were applied.

So what a handle reads is what the history shows at its timestamp
(`Inv.get_eq`), and a key is in conflict iff a transaction of the history above
that timestamp wrote it (`Inv.newerThan_iff`).

Every step preserves the invariant (`Inv.step`); that opening a database
establishes it is proved with recovery.
-/

namespace TxnDb

open Mvcc

variable {tr : List Event} {s s' : Sys} {h r w : ℕ} {x : Handle} {inner : Inner} {e : Event}
  {a : Attempt} {k : Key}

/-- The writes of the attempt were applied. -/
def Stage.Applied : Stage → Prop
  | .allocated => False
  | .applied | .appending | .decided (.ok _) | .decided (.error (.durability _)) => True
  | .decided (.error _) => False

/-- A handle that has tried to commit the attempt `a`, and nothing else. -/
def Handle.Past (a : Attempt) : Handle → Prop
  | .reading _ | .active _ => False
  | .committing b _ => b = a
  | .finished _ _ | .closed => True

theorem Step.length_le (hstep : Step s e s') : s.handles.length ≤ s'.handles.length := by
  cases hstep with
  | began => exact List.length_append ▸ Nat.le_add_right _ _
  | opened => exact (List.length_map _).ge
  | gotSnapshot | swept | pruned => exact le_rfl
  | _ => exact Sys.length_handles_set.ge

/-- A handle that has tried to commit does nothing else. -/
theorem Step.past (hstep : Step s e s') (hlt : a.id < s.handles.length)
    (hp : (s.handle a.id).Past a) : a.id < s'.handles.length ∧ (s'.handle a.id).Past a := by
  refine ⟨hlt.trans_le hstep.length_le, ?_⟩
  cases hstep with
  | began => rwa [Sys.handle_add, if_neg hlt.ne]
  | gotSnapshot | swept | pruned => exact hp
  | gotStore hh | gotOwn hh | wrote hh | readOnly hh | allocated hh | returned hh
  | droppedSnapshot hh | droppedTransaction hh | reported hh =>
    exact Sys.handle_set_keeps (·.Past a) (Sys.ne_closed hh rfl) hp fun hp => by
      rw [hh] at hp
      trivial
  | committed hh | conflicted hh | appending hh | appended hh | appendFailed hh =>
    exact Sys.handle_set_keeps (·.Past a) (Sys.ne_closed hh rfl) hp fun hp => by
      rw [hh] at hp
      exact hp
  | opened => rw [Sys.handle_map_closed]; trivial

/-- The attempt `a` of the handle `h` is at `stage`, and in the history `H` if it
    was applied; no other transaction has its timestamp. -/
structure Attempted (H : List Attempt) (h : ℕ) (a : Attempt) (stage : Stage) : Prop where
  id : a.id = h
  nodupKeys : a.writes.NodupKeys
  mem : stage.Applied → a ∈ H
  eq_of_mem : ∀ b ∈ H, b.commitTs = a.commitTs → b = a ∧ stage.Applied

/-- The invariant, for the trace so far and the state it leads to. -/
structure Inv (tr : List Event) (s : Sys) : Prop extends Coordinated s (issued tr) where
  issued_le : issued tr ≤ allocations tr
  /-- The garbage collections under way are at safe timestamps. -/
  sweeps : ∀ sweep ∈ s.sweeps, s.Safe sweep.lowWatermark
  /-- The chains are what is left of the history. -/
  chains : ∀ k, ∃ w, s.Safe w ∧ Pruned w (versions (history tr) k) (s.inner.store.chain k)
  valid : Validated (history tr)
  read_le : ∀ a ∈ history tr, a.readTs ≤ s.inner.readTs
  commit_le : ∀ a ∈ history tr, a.commitTs ≤ issued tr
  /-- The attempts in progress. -/
  attempts : ∀ {h a stage}, s.handle h = .committing a stage → Attempted (history tr) h a stage
  /-- The handles of the transactions committed. -/
  past : ∀ a ∈ history tr, a.id < s.handles.length ∧ (s.handle a.id).Past a
  nodup_id : ((history tr).map (·.id)).Nodup

/-- A reader at `r` sees what is not garbage: it is at or above every safe timestamp. -/
def Sys.Sees (s : Sys) (r : ℕ) : Prop := ∀ w, s.Safe w → w ≤ r

theorem Sys.sees_of_readTs (hr : (s.handle h).readTs = some r) : s.Sees r := fun _ hw => hw.2 h r hr

theorem Sys.sees_readTs (s : Sys) : s.Sees s.inner.readTs := fun _ hw => hw.1

namespace Inv

theorem ascending (hinv : Inv tr s) (k : Key) : Ascending (s.inner.store.chain k) :=
  have ⟨_, _, hp⟩ := hinv.chains k
  hp.ascending (hinv.valid.ascending k)

/-- A read gives what the history shows. -/
theorem get_eq (hinv : Inv tr s) (hr : s.Sees r) (k : Key) :
    s.inner.store.get k r = snapshot (history tr) r k := by
  obtain ⟨w, hw, hp⟩ := hinv.chains k
  rw [MemoryStore.get_eq (hinv.ascending k).sorted,
    hp.visible_eq (hinv.valid.ascending k) (hr w hw)]
  rfl

/-- A key is in conflict iff some transaction of the history wrote it above `r`. -/
theorem newerThan_iff (hinv : Inv tr s) (hr : s.Sees r) (k : Key) :
    newerThan (some (s.inner.store.chain k)) r = true ↔
      ∃ b ∈ history tr, b.Writes k ∧ r < b.commitTs := by
  obtain ⟨w, hw, hp⟩ := hinv.chains k
  rw [MemoryStore.newerThan_iff (hinv.ascending k),
    hp.newer_iff (hinv.valid.ascending k) (hr w hw), newer_versions]

/-- A validation that succeeds has seen every transaction that wrote a key it touches. -/
theorem conflict?_eq_none_iff (hinv : Inv tr s) (hr : s.Sees a.readTs) :
    s.inner.store.conflict? a.readTs a.writes a.reads = none ↔
      ∀ k, a.Touches k → ∀ b ∈ history tr, b.Writes k → b.commitTs ≤ a.readTs := by
  rw [MemoryStore.conflict?, List.find?_eq_none]
  constructor
  · intro h k hk b hb hbk
    have hmem : k ∈ a.writes.map (·.1) ++ a.reads := List.mem_append.2 hk
    by_contra hlt
    exact h k hmem ((hinv.newerThan_iff hr k).2 ⟨b, hb, hbk, not_le.1 hlt⟩)
  · intro h k hk hn
    obtain ⟨b, hb, hbk, hlt⟩ := (hinv.newerThan_iff hr k).1 hn
    exact absurd (h k (List.mem_append.1 hk) b hb hbk) (not_le.2 hlt)

/-- Of the transactions of the history, only `a` is the attempt of the handle. -/
theorem eq_of_committing (hinv : Inv tr s) {stage : Stage} (hh : s.handle h = .committing a stage) :
    ∀ b ∈ history tr, b.id = h → b = a := by
  rintro b hb rfl
  have hp := (hinv.past b hb).2
  rw [hh] at hp
  exact hp.symm

/-- An attempt in progress reads at or below the watermark, and commits above it. -/
theorem readTs_lt (hinv : Inv tr s) {stage : Stage} (hh : s.handle h = .committing a stage) :
    a.readTs ≤ s.inner.readTs ∧ s.inner.readTs < a.commitTs :=
  ⟨hinv.le (congrArg Handle.readTs hh), hinv.tracks.readTs_lt ⟨h, congrArg Handle.commitTs hh⟩⟩

/-- The timestamp handed out is the one after all others. -/
theorem commitTs_allocated (hinv : Inv tr s) (hstep : Step s (.allocated a) s')
    (hlt : allocations (tr ++ [.allocated a]) < 2 ^ 64) : a.commitTs = issued tr + 1 := by
  have hle := hinv.issued_le
  rw [allocations_append, show allocations [.allocated a] = 1 from rfl] at hlt
  exact hstep.commitTs_eq hinv.tracks.nextTs (by omega)

/-- A step that hands out a timestamp hands out the next one; the watermark does not move back. -/
theorem advance (hinv : Inv tr s) (hstep : Step s e s') (hlt : allocations (tr ++ [e]) < 2 ^ 64)
    (hopen : ∀ L, e ≠ .opened L) :
    Coordinated s' (issued (tr ++ [e])) ∧ s.inner.readTs ≤ s'.inner.readTs ∧
      issued tr ≤ issued (tr ++ [e]) ∧ issued (tr ++ [e]) ≤ allocations (tr ++ [e]) := by
  have hle := hinv.issued_le
  rw [allocations_append] at hlt ⊢
  have hone : e.allocates → allocations [e] = 1 := fun h => by simp [allocations, h]
  have hN : e.allocates → issued tr + 1 < 2 ^ 64 := fun h => by rw [hone h] at hlt; omega
  obtain ⟨hread, hc⟩ := hinv.toCoordinated.step hstep hN hopen
  rw [issued_append_singleton]
  have hissue : e.issue (issued tr) = issued tr + allocations [e] :=
    hstep.issue_eq hinv.tracks.nextTs (by omega) hopen
  exact ⟨hc, hread, by omega, by omega⟩

/-- The part of the invariant about the history, when a step leaves it and the
    store as they are. -/
theorem frame (hinv : Inv tr s) (hstep : Step s e s') (hlt : allocations (tr ++ [e]) < 2 ^ 64)
    (hopen : ∀ L, e ≠ .opened L) (hhist : e.extend (history tr) = history tr)
    (hstore : s'.inner.store = s.inner.store)
    (hsweeps : ∀ sweep ∈ s'.sweeps, s.Safe sweep.lowWatermark)
    (hatt : ∀ {h a stage}, s'.handle h = .committing a stage → Attempted (history tr) h a stage) :
    Inv (tr ++ [e]) s' := by
  obtain ⟨hc, hread, hiss, hall⟩ := hinv.advance hstep hlt hopen
  have hsafe : ∀ {w}, s.Safe w → s'.Safe w := fun hw => hw.step hstep hread
  have hhist' : history (tr ++ [e]) = history tr := by rw [history_append_singleton, hhist]
  refine ⟨hc, hall, fun sweep hs => hsafe (hsweeps sweep hs), fun k => ?_, ?_, ?_, ?_, ?_, ?_, ?_⟩
  · obtain ⟨w, hw, hp⟩ := hinv.chains k
    exact ⟨w, hsafe hw, by rwa [hhist', hstore]⟩
  · rw [hhist']
    exact hinv.valid
  · rw [hhist']
    exact fun a ha => (hinv.read_le a ha).trans hread
  · rw [hhist']
    exact fun a ha => (hinv.commit_le a ha).trans hiss
  · rw [hhist']
    exact hatt
  · rw [hhist']
    exact fun a ha => hstep.past (hinv.past a ha).1 (hinv.past a ha).2
  · rw [hhist']
    exact hinv.nodup_id

theorem attempts_set {H : List Attempt} (hh : s.handle h ≠ .closed)
    (hatt : ∀ {h a stage}, s.handle h = .committing a stage → Attempted H h a stage)
    (hx : ∀ {a stage}, x = .committing a stage → Attempted H h a stage) {h' : ℕ} {stage : Stage}
    (hh' : (s.set h x inner).handle h' = .committing a stage) : Attempted H h' a stage := by
  rcases Sys.handle_set_cases hh hh' with hh' | ⟨rfl, hx'⟩
  · exact hatt hh'
  · exact hx hx'

/-- A handle that changes, when the history and the store do not. -/
theorem set (hinv : Inv tr s) (hstep : Step s e (s.set h x inner))
    (hlt : allocations (tr ++ [e]) < 2 ^ 64) (hopen : ∀ L, e ≠ .opened L)
    (hhist : e.extend (history tr) = history tr) (hstore : inner.store = s.inner.store)
    (hh : s.handle h ≠ .closed)
    (hx : ∀ {a stage}, x = .committing a stage → Attempted (history tr) h a stage) :
    Inv (tr ++ [e]) (s.set h x inner) :=
  hinv.frame hstep hlt hopen hhist hstore hinv.sweeps (attempts_set hh hinv.attempts hx)

/-- The attempt of a handle goes on to a later stage, at which it is as applied as before. -/
theorem attempt_of_iff (hinv : Inv tr s) {stage stage' : Stage}
    (hh : s.handle h = .committing a stage) (hst : stage'.Applied ↔ stage.Applied) {b : Attempt}
    {st : Stage} (hx : Handle.committing a stage' = .committing b st) :
    Attempted (history tr) h b st := by
  obtain ⟨rfl, rfl⟩ := Handle.committing.inj hx
  have hatt := hinv.attempts hh
  exact ⟨hatt.id, hatt.nodupKeys, fun h => hatt.mem (hst.1 h),
    fun b hb heq => ⟨(hatt.eq_of_mem b hb heq).1, hst.2 (hatt.eq_of_mem b hb heq).2⟩⟩

/-- The attempt of a commit that succeeds is validated, and appended to the history. -/
theorem valid_append (hinv : Inv tr s) (hh : s.handle h = .committing a .allocated)
    (hnone : s.inner.store.conflict? a.readTs a.writes a.reads = none) :
    Validated (history tr ++ [a]) := by
  obtain ⟨hle, hlt⟩ := hinv.readTs_lt hh
  have hsees : s.Sees a.readTs := Sys.sees_of_readTs (congrArg Handle.readTs hh)
  refine hinv.valid.append (hle.trans_lt hlt) (fun b hb heq => ?_)
    (fun b hb => (hinv.read_le b hb).trans_lt hlt) ((hinv.conflict?_eq_none_iff hsees).1 hnone)
  exact ((hinv.attempts hh).eq_of_mem b hb heq).2

/-- A commit appends one version to the history of each key it writes, and to its chain. -/
theorem versions_append_singleton {H : List Attempt} (hnd : a.writes.NodupKeys) (k : Key) :
    versions (H ++ [a]) k = versions H k ++ (a.writes.lookupAll k).map (⟨a.commitTs, ·⟩) := by
  rw [versions_append, List.lookupAll_eq_dlookup k hnd]
  cases hk : a.writes.dlookup k with
  | none => rw [versions_singleton_of_not_writes (Txn.not_writes_iff.2 hk)]; rfl
  | some v => rw [versions_singleton_of_writesValue hk]; rfl

/-- What was appended to the history, a version or nothing, is appended to the chain. -/
theorem pruned_append {full chain l : List Version} (hp : Pruned w full chain)
    (hl : l.length ≤ 1) : Pruned w (full ++ l) (chain ++ l) := by
  match l with
  | [] => rwa [List.append_nil, List.append_nil]
  | [v] => exact hp.push v
  | _ :: _ :: _ => simp at hl

theorem length_lookupAll_le (hnd : a.writes.NodupKeys) (k : Key) :
    (a.writes.lookupAll k).length ≤ 1 := by
  rw [List.lookupAll_eq_dlookup k hnd]
  exact Option.length_toList_le

/-- Once `a` is in the history, and applied, the attempts are in it as far as they were applied. -/
theorem attempts_committed (hinv : Inv tr s) {a' : Attempt} {h' : ℕ} {stage stage' : Stage}
    (hh : s.handle h = .committing a .allocated) (happ : stage.Applied)
    (hh' : (s.set h (.committing a stage) inner).handle h' = .committing a' stage') :
    Attempted (history tr ++ [a]) h' a' stage' := by
  have hatt := hinv.attempts hh
  rw [Sys.handle_set (Sys.ne_closed hh rfl)] at hh'
  split_ifs at hh' with heq
  · obtain ⟨rfl, rfl⟩ := Handle.committing.inj hh'
    refine ⟨hatt.id.trans heq.symm, hatt.nodupKeys, fun _ => List.mem_append_right _ (by simp),
      List.forall_mem_append.2 ⟨fun b hb hbc => (hatt.eq_of_mem b hb hbc).2.elim, ?_⟩⟩
    exact List.forall_mem_singleton.2 fun _ => ⟨rfl, happ⟩
  · have hatt' := hinv.attempts hh'
    refine ⟨hatt'.id, hatt'.nodupKeys, fun hst => List.mem_append_left _ (hatt'.mem hst),
      List.forall_mem_append.2 ⟨hatt'.eq_of_mem, List.forall_mem_singleton.2 fun hbc => ?_⟩⟩
    -- the timestamp of `a` is held by one handle only
    exact absurd (hinv.distinct (congrArg Handle.commitTs hh')
      ((congrArg Handle.commitTs hh).trans (congrArg some hbc))) heq

/-- A commit succeeds. -/
theorem committed (hinv : Inv tr s) {store : MemoryStore} {stage : Stage}
    (hlt : allocations (tr ++ [.committed a]) < 2 ^ 64)
    (hh : s.handle h = .committing a .allocated)
    (hok : s.inner.store.tryCommit a.readTs a.commitTs a.writes a.reads = .ok store)
    (hstage : stage = if s.inner.log.isSome then .applied else .decided (.ok a.commitTs)) :
    Inv (tr ++ [.committed a]) (s.set h (.committing a stage) { s.inner with store }) := by
  have hstep := Step.committed hh hok hstage
  obtain ⟨hc, hread, -, hall⟩ := hinv.advance hstep hlt nofun
  have hatt := hinv.attempts hh
  have hclosed : s.handle h ≠ .closed := Sys.ne_closed hh rfl
  have happ : stage.Applied := by rw [hstage]; split_ifs <;> trivial
  have hsafe : ∀ {w}, s.Safe w → (s.set h (.committing a stage) { s.inner with store }).Safe w :=
    fun hw => hw.step hstep hread
  rcases MemoryStore.tryCommit_commits s.inner.store a.readTs a.commitTs a.writes a.reads with
    ⟨_, _, herr⟩ | ⟨_, hnone, heq, _, hchain⟩
  · rw [hok] at herr
    cases herr
  rw [hok] at heq
  obtain rfl := Except.ok.inj heq
  have hhist : history (tr ++ [.committed a]) = history tr ++ [a] := history_append_singleton
  refine ⟨hc, hall, fun sweep hs => hsafe (hinv.sweeps sweep hs), fun k => ?_, ?_, ?_, ?_, ?_,
    ?_, ?_⟩
  · obtain ⟨w, hw, hp⟩ := hinv.chains k
    refine ⟨w, hsafe hw, ?_⟩
    rw [hhist, versions_append_singleton hatt.nodupKeys]
    change Pruned w _ (store.chain k)
    rw [hchain]
    exact pruned_append hp (by rw [List.length_map]; exact length_lookupAll_le hatt.nodupKeys k)
  · rw [hhist]
    exact hinv.valid_append hh hnone
  · rw [hhist]
    exact List.forall_mem_append.2
      ⟨hinv.read_le, List.forall_mem_singleton.2 (hinv.readTs_lt hh).1⟩
  · rw [hhist, issued_append_singleton]
    exact List.forall_mem_append.2 ⟨hinv.commit_le, List.forall_mem_singleton.2
      (hinv.tracks.le_issued ⟨h, congrArg Handle.commitTs hh⟩)⟩
  · rw [hhist]
    exact hinv.attempts_committed hh happ
  · rw [hhist]
    refine List.forall_mem_append.2 ⟨fun b hb => hstep.past (hinv.past b hb).1 (hinv.past b hb).2,
      List.forall_mem_singleton.2 ?_⟩
    rw [hatt.id, Sys.handle_set_self hclosed, Sys.length_handles_set]
    exact ⟨Sys.lt_of_handle hclosed, rfl⟩
  · rw [hhist, List.map_append, List.nodup_append]
    refine ⟨hinv.nodup_id, List.nodup_singleton _, fun i hi j hj => ?_⟩
    obtain ⟨b, hb, rfl⟩ := List.mem_map.1 hi
    rw [List.mem_singleton.1 hj]
    -- no transaction of the history has the handle of the attempt, as it would have its timestamp
    exact fun heq => (hatt.eq_of_mem b hb (congrArg Txn.commitTs
      (hinv.eq_of_committing hh b hb (heq.trans hatt.id)))).2

/-- A shard is pruned. -/
theorem pruned (hinv : Inv tr s) {g reclaimed : ℕ} {sweep : Sweep} (hg : s.sweeps[g]? = some sweep)
    (hlt : allocations (tr ++ [.pruned g sweep.next]) < 2 ^ 64)
    (hshard : sweep.next < s.inner.store.shards.length) :
    Inv (tr ++ [.pruned g sweep.next]) { s with
      inner := { s.inner with store := (s.inner.store.pruneShard sweep.lowWatermark sweep.next).1 }
      sweeps := s.sweeps.set g ⟨sweep.lowWatermark, sweep.next + 1, reclaimed⟩ } := by
  obtain ⟨hc, hread, hiss, hall⟩ :=
    hinv.advance (@Step.pruned s g sweep reclaimed hg hshard) hlt nofun
  have hsweep : s.Safe sweep.lowWatermark := hinv.sweeps sweep (List.mem_of_getElem? hg)
  have hhist : history (tr ++ [.pruned g sweep.next]) = history tr := history_append_singleton
  refine ⟨hc, hall, fun sweep' hs => ?_, fun k => ?_, ?_, ?_, ?_, ?_, ?_, ?_⟩
  · rcases List.mem_or_eq_of_mem_set hs with hs | rfl
    · exact hinv.sweeps sweep' hs
    · exact hsweep
  · obtain ⟨w, hw, hp⟩ := hinv.chains k
    change ∃ w, s.Safe w ∧ Pruned w (versions (history (tr ++ [.pruned g sweep.next])) k)
      ((s.inner.store.pruneShard sweep.lowWatermark sweep.next).1.chain k)
    rw [hhist, MemoryStore.chain_pruneShard hshard (hinv.ascending k)]
    split_ifs
    -- what was pruned twice is pruned at the higher of the two timestamps
    · exact ⟨_, ⟨max_le hw.1 hsweep.1, fun h r hr => max_le (hw.2 h r hr) (hsweep.2 h r hr)⟩,
        hp.prune (hinv.valid.ascending k) _⟩
    · exact ⟨w, hw, hp⟩
  · exact hhist ▸ hinv.valid
  · exact hhist ▸ hinv.read_le
  · exact hhist ▸ fun a ha => (hinv.commit_le a ha).trans hiss
  · exact hhist ▸ hinv.attempts
  · exact hhist ▸ hinv.past
  · exact hhist ▸ hinv.nodup_id

/-- Every step but opening the database preserves the invariant. -/
theorem step (hinv : Inv tr s) (hstep : Step s e s') (hlt : allocations (tr ++ [e]) < 2 ^ 64)
    (hopen : ∀ L, e ≠ .opened L) : Inv (tr ++ [e]) s' := by
  cases hstep with
  | began kind =>
    refine hinv.frame (.began kind) hlt hopen rfl rfl hinv.sweeps fun {h a stage} hh => ?_
    rw [Sys.handle_add] at hh
    split_ifs at hh
    · cases kind <;> cases hh
    · exact hinv.attempts hh
  | gotSnapshot hh =>
    exact hinv.frame (.gotSnapshot hh) hlt hopen rfl rfl hinv.sweeps hinv.attempts
  | gotStore hh hk =>
    exact hinv.set (.gotStore hh hk) hlt hopen rfl rfl (Sys.ne_closed hh rfl) nofun
  | gotOwn hh hk =>
    exact hinv.set (.gotOwn hh hk) hlt hopen rfl rfl (Sys.ne_closed hh rfl) nofun
  | wrote hh =>
    exact hinv.set (.wrote hh) hlt hopen rfl rfl (Sys.ne_closed hh rfl) nofun
  | readOnly hh hw =>
    exact hinv.set (.readOnly hh hw) hlt hopen rfl rfl (Sys.ne_closed hh rfl) nofun
  | @allocated h tx a hh hid hr hc hw hne hreads =>
    -- the timestamp is the next one, above those of the history
    have hstep := Step.allocated hh hid hr hc hw hne hreads
    have hnext := hinv.commitTs_allocated hstep hlt
    refine hinv.set hstep hlt hopen rfl rfl
      (Sys.ne_closed hh rfl) (fun {b stage} hx => ?_)
    obtain ⟨rfl, rfl⟩ := Handle.committing.inj hx
    refine ⟨hid, (List.perm_nodupKeys hw).2 tx.writes.nodupKeys, False.elim, fun b hb heq => ?_⟩
    have := hinv.commit_le b hb
    omega
  | committed hh hok hstage => exact hinv.committed hlt hh hok hstage
  | @conflicted h a e hh herr =>
    have hst : (Stage.decided (.error e)).Applied ↔ Stage.allocated.Applied := by
      rcases MemoryStore.tryCommit_commits s.inner.store a.readTs a.commitTs a.writes a.reads with
        ⟨_, _, heq⟩ | ⟨_, _, heq, _⟩ <;> rw [herr] at heq <;> cases heq
      exact Iff.rfl
    exact hinv.set (.conflicted hh herr) hlt hopen rfl rfl (Sys.ne_closed hh rfl)
      (hinv.attempt_of_iff hh hst)
  | appending hh hlog =>
    exact hinv.set (.appending hh hlog) hlt hopen rfl rfl (Sys.ne_closed hh rfl)
      (hinv.attempt_of_iff hh (by exact Iff.rfl))
  | appended hh hlog =>
    exact hinv.set (.appended hh hlog) hlt hopen rfl rfl (Sys.ne_closed hh rfl)
      (hinv.attempt_of_iff hh (by exact Iff.rfl))
  | appendFailed hh hlog =>
    exact hinv.set (.appendFailed hh hlog) hlt hopen rfl rfl (Sys.ne_closed hh rfl)
      (hinv.attempt_of_iff hh (by exact Iff.rfl))
  | reported hh =>
    exact hinv.set (.reported hh) hlt hopen rfl rfl (Sys.ne_closed hh rfl) nofun
  | returned hh =>
    exact hinv.set (.returned hh) hlt hopen rfl rfl (Sys.ne_closed hh rfl) nofun
  | droppedSnapshot hh =>
    exact hinv.set (.droppedSnapshot hh) hlt hopen rfl rfl (Sys.ne_closed hh rfl) nofun
  | droppedTransaction hh =>
    exact hinv.set (.droppedTransaction hh) hlt hopen rfl rfl (Sys.ne_closed hh rfl) nofun
  | swept =>
    refine hinv.frame .swept hlt hopen rfl rfl (fun sweep hs => ?_) hinv.attempts
    rcases List.mem_append.1 hs with hs | hs
    · exact hinv.sweeps sweep hs
    · rw [List.mem_singleton.1 hs]
      exact hinv.safe_lowWatermark
  | pruned hg hshard => exact hinv.pruned hg hlt hshard
  | opened => exact absurd rfl (hopen _)

/-- The invariant of a database with no history. -/
theorem init {inner : Inner} (ho : inner.oracle = .new ∨ inner.oracle = .recovered 0)
    (hs : ∀ k, inner.store.chain k = []) : Inv [] ⟨inner, [], []⟩ := by
  have hc : Coordinated ⟨inner, [], []⟩ 0 := by
    refine Coordinated.of_closed (fun _ => rfl) ?_ ?_
    · rcases ho with ho | ho <;> rw [ho]
      · exact Oracle.tracks_new
      · exact Oracle.tracks_recovered (by decide)
    · rcases ho with ho | ho <;> rw [ho]
      · exact Oracle.registers_new
      · exact Oracle.registers_recovered
  refine ⟨hc, le_rfl, nofun, fun k => ⟨0, ⟨Nat.zero_le _, nofun⟩, ?_⟩,
    .nil, nofun, nofun, nofun, nofun, List.nodup_nil⟩
  rw [hs]
  exact Pruned.refl _ _

end Inv

/-! ## Runs in memory -/

/-- A database in memory stays so, and is never opened. -/
theorem Step.log_eq_none (hstep : Step s e s') (hlog : s.inner.log = none) :
    s'.inner.log = none ∧ ∀ L, e ≠ .opened L := by
  cases hstep with
  | appending _ h | appended _ h | appendFailed _ h | opened h => rw [hlog] at h; cases h
  | _ => exact ⟨hlog, nofun⟩

/-- A run of a database in memory never opens it. -/
theorem log_eq_none_of_run (hrun : Run .new tr s) :
    s.inner.log = none ∧ ∀ L, .opened L ∉ tr := by
  refine hrun.invariant (motive := fun tr s => s.inner.log = none ∧ ∀ L, .opened L ∉ tr)
    ⟨rfl, nofun⟩ fun _ ⟨hlog, hno⟩ hstep => ?_
  obtain ⟨hlog', hne⟩ := hstep.log_eq_none hlog
  refine ⟨hlog', fun L hL => ?_⟩
  rcases List.mem_append.1 hL with hL | hL
  · exact hno L hL
  · exact hne L (List.mem_singleton.1 hL).symm

end TxnDb
