import Mathlib.Data.List.Sort
import TxnDb.Install
import TxnDb.Invariant

/-!
# Recovery

Opening a database on a log of records of attempts whose lengths fit succeeds,
and installs these attempts in order of timestamps (`openLog_records`). Whatever
they validated, they make a validated history again, each one as if it had read
just before it committed (`replayed`, `valid_recovered`), and the chains of the
store are the versions of this history: the invariant holds again (`Inv.recovered`).

Once a record is in the log it stays there (`Step.records_subset`).
-/

namespace TxnDb

open Mvcc

variable {tr : List Event} {s s' : Sys} {e : Event} {a : Attempt} {k : Key} {L M : List Attempt}
  {log : CommitLog}

/-- The attempt a recovered commit is installed as. -/
def replayed (a : Attempt) : Attempt := ⟨a.id, a.commitTs - 1, a.commitTs, a.writes, []⟩

/-- The attempts whose records make a log, as they are installed. -/
def recovered (M : List Attempt) : List Attempt :=
  (M.map replayed).insertionSort (·.commitTs ≤ ·.commitTs)

/-- The commit its record decodes to. -/
def commitOf (a : Attempt) : RecoveredCommit := ⟨a.commitTs, a.writes⟩

/-- The attempt can be logged: its timestamp and its lengths fit. -/
def Loggable (a : Attempt) : Prop := a.commitTs < 2 ^ 64 ∧ Fits a.writes

theorem decodeCommit_record (h : Loggable a) :
    decodeCommit (record a).data = .ok (commitOf a) :=
  decodeCommit_encodeForLog h.1 h.2

theorem mapM_ok {α β : Type} {f : α → Except TxnError β} {g : α → β} {l : List α}
    (h : ∀ x ∈ l, f x = .ok (g x)) : l.mapM f = .ok (l.map g) := by
  induction l with
  | nil => rfl
  | cons x l ih =>
    rw [List.mapM_cons, h x List.mem_cons_self, ih fun y hy => h y (List.mem_cons_of_mem _ hy)]
    rfl

/-- What is computed on a list is computed of each element. -/
theorem forall₂_of_mapM {α β : Type} {f : α → Except TxnError β} {l : List α} {ys : List β}
    (h : l.mapM f = .ok ys) : List.Forall₂ (fun x y => f x = .ok y) l ys := by
  induction l generalizing ys with
  | nil =>
    obtain rfl := Except.ok.inj h
    exact .nil
  | cons x l ih =>
    rw [List.mapM_cons] at h
    cases hx : f x with
    | error e =>
      rw [hx] at h
      cases h
    | ok y =>
      cases hl : l.mapM f with
      | error e =>
        rw [hx, hl] at h
        cases h
      | ok zs =>
        rw [hx, hl] at h
        obtain rfl := Except.ok.inj h
        exact .cons hx (ih hl)

/-- The records of a log decode to the commits they are of. -/
theorem decode_records (h : ∀ a ∈ M, Loggable a) :
    decodeAll (M.map record) = .ok (M.map commitOf) := by
  rw [decodeAll, List.mapM_map]
  exact mapM_ok fun a ha => decodeCommit_record (h a ha)

/-- The transactions found in the log are those whose records make it. -/
theorem recoveredAttempts_records (h : ∀ a ∈ M, Loggable a) :
    recoveredAttempts (M.map record) = .ok (recovered M) := by
  have hmap : (M.map record).mapM Record.attempt = .ok (M.map replayed) := by
    rw [List.mapM_map]
    refine mapM_ok fun a ha => ?_
    simp only [Function.comp_apply, Record.attempt, decodeCommit_record (h a ha)]
    rfl
  rw [recoveredAttempts, hmap]
  rfl

/-! ## The store -/

/-- Replaying a list of attempts: installing the commits their records decode to. -/
def replay (L : List Attempt) : ℕ × MemoryStore := installAll (L.map commitOf)

theorem highest_eq (L : List Attempt) : highest L = (L.map (·.commitTs)).foldl max 0 :=
  List.foldl_map.symm

theorem highest_append_singleton : highest (L ++ [a]) = max (highest L) a.commitTs := by
  simp [highest]

theorem replay_fst (L : List Attempt) : (replay L).1 = highest L := by
  rw [replay, installAll_fst, List.map_map, highest_eq]
  rfl

/-- Replaying a history leaves its versions in the chains. -/
theorem replay_chain (h : ∀ a ∈ L, a.writes.NodupKeys) (k : Key) :
    (replay L).2.chain k = versions L k := by
  rw [replay, chain_installAll, versionsIn, List.flatMap_map, versions,
    List.filterMap_eq_flatMap_toList]
  refine List.flatMap_congr fun a ha => ?_
  -- a key is written once in a commit
  change (a.writes.lookupAll k).map _ = _
  rw [List.lookupAll_eq_dlookup k (h a ha)]
  cases a.writes.dlookup k <;> rfl

theorem le_highest (ha : a ∈ L) : a.commitTs ≤ highest L := by
  rw [highest_eq]
  exact le_foldl_max (List.mem_map_of_mem ha)

theorem highest_le {N : ℕ} (h : ∀ a ∈ L, a.commitTs ≤ N) : highest L ≤ N := by
  rw [highest_eq]
  exact foldl_max_le (List.forall_mem_map.2 h)

/-- Opening the database on the records of `M` replays them in order of timestamps. -/
theorem openLog_records (h : ∀ a ∈ M, Loggable a) :
    Inner.openLog (M.map record) = .ok ⟨(replay (recovered M)).2,
      .recovered (highest (recovered M)), some ⟨⟨M.map record, []⟩⟩⟩ := by
  have hsort : (M.map commitOf).insertionSort (·.commitTs ≤ ·.commitTs) =
      (recovered M).map commitOf := by
    have hmap := List.map_insertionSort (fun a b : Attempt => a.commitTs ≤ b.commitTs)
      (fun a b : RecoveredCommit => a.commitTs ≤ b.commitTs) commitOf (M.map replayed)
      fun _ _ _ _ => Iff.rfl
    rw [List.map_map] at hmap
    exact hmap.symm
  rw [openLog_installAll (decode_records h), hsort, ← replay, replay_fst]

/-- A database that opens has the log it was opened on. -/
theorem openLog_log {records : List Record} {inner : Inner}
    (h : Inner.openLog records = .ok inner) : inner.log = some ⟨⟨records, []⟩⟩ := by
  obtain ⟨-, -, -, -, rfl⟩ := Inner.openLog_inv h
  rfl

/-! ## The log -/

/-- A database stays durable, or in memory. -/
theorem Step.isSome_log (hstep : Step s e s') : s'.inner.log.isSome = s.inner.log.isSome := by
  cases hstep with
  | appending _ hlog | appended _ hlog | appendFailed _ hlog => rw [hlog]; rfl
  | @opened _ _ _ inner _ hlog _ _ hopen =>
    change inner.log.isSome = _
    rw [hlog, openLog_log hopen]
    rfl
  | _ => rfl

/-- A record in the log stays there. -/
theorem Step.records_subset (hstep : Step s e s') (hlog : s.inner.log = some log) :
    ∃ log', s'.inner.log = some log' ∧ log.wal.records ⊆ log'.wal.records := by
  cases hstep with
  | appending _ hlog' =>
    obtain rfl := Option.some.inj (hlog.symm.trans hlog')
    exact ⟨_, rfl, List.Subset.refl _⟩
  | appended _ hlog' =>
    obtain rfl := Option.some.inj (hlog.symm.trans hlog')
    exact ⟨_, rfl, List.subset_append_left _ _⟩
  | appendFailed _ hlog' =>
    obtain rfl := Option.some.inj (hlog.symm.trans hlog')
    exact ⟨_, rfl, List.Subset.refl _⟩
  | opened hlog' hsub hperm hopen =>
    obtain rfl := Option.some.inj (hlog.symm.trans hlog')
    exact ⟨_, openLog_log hopen, fun entry he =>
      hperm.symm.subset (List.mem_append_left _ he)⟩
  | _ => exact ⟨log, hlog, List.Subset.refl _⟩

/-! ## The history -/

theorem recovered_perm : (recovered M).Perm (M.map replayed) := List.perm_insertionSort _ _

theorem mem_recovered : a ∈ recovered M ↔ ∃ b ∈ M, replayed b = a := by
  rw [recovered_perm.mem_iff, List.mem_map]

/-- The recovered transactions are in order of timestamps. -/
theorem recovered_sorted (hnd : (M.map (·.commitTs)).Nodup) :
    (recovered M).Pairwise fun a b => a.commitTs < b.commitTs :=
  List.pairwise_lt_insertionSort (by rw [List.map_map]; exact hnd)

/-- The recovered transactions make a validated history. -/
theorem valid_recovered (hpos : ∀ a ∈ M, 0 < a.commitTs) (hnd : (M.map (·.commitTs)).Nodup) :
    Validated (recovered M) := by
  have hsorted := recovered_sorted hnd
  have hread : ∀ a ∈ recovered M, a.readTs + 1 = a.commitTs := fun a ha => by
    obtain ⟨b, hb, rfl⟩ := mem_recovered.1 ha
    exact Nat.sub_add_cancel (hpos b hb)
  have hreads : ∀ a ∈ recovered M, a.reads = [] := fun a ha => by
    obtain ⟨b, hb, rfl⟩ := mem_recovered.1 ha
    rfl
  refine ⟨fun a ha => by have := hread a ha; omega, ?_, ?_, ?_⟩
  · rw [List.Nodup, List.pairwise_map]
    exact hsorted.imp fun h => h.ne
  · exact hsorted.imp_of_mem fun ha _ hlt => by have := hread _ ha; omega
  · exact hsorted.imp_of_mem fun _ hb hlt _ _ _ => by have := hread _ hb; omega

/-- Opening the database on the records of transactions of the history
    establishes the invariant. -/
theorem Inv.recovered (hinv : Inv tr s) (hmem : ∀ a ∈ M, a ∈ history tr) (hnodup : M.Nodup)
    (hkeys : ∀ a ∈ M, a.writes.NodupKeys) (log : Option CommitLog) :
    Inv (tr ++ [.opened (recovered M)])
      ⟨⟨(replay (TxnDb.recovered M)).2, .recovered (highest (TxnDb.recovered M)), log⟩,
        s.handles.map fun _ => .closed, []⟩ := by
  have hpos : ∀ a ∈ M, 0 < a.commitTs := fun a ha =>
    (Nat.zero_le _).trans_lt (hinv.valid.lt a (hmem a ha))
  have hinj : ∀ {f : Attempt → ℕ}, ((history tr).map f).Nodup → (M.map f).Nodup := fun hf =>
    hnodup.map_on fun a ha b hb heq => List.inj_on_of_nodup_map hf (hmem a ha) (hmem b hb) heq
  have hvalid := valid_recovered hpos (hinj hinv.valid.nodup)
  have hhandle : ∀ h, Sys.handle ⟨⟨(replay (TxnDb.recovered M)).2,
      .recovered (highest (TxnDb.recovered M)), log⟩, s.handles.map fun _ => .closed, []⟩ h =
      .closed := Sys.handle_map_closed _ _
  have hhigh : highest (TxnDb.recovered M) ≤ issued tr := highest_le fun a ha => by
    obtain ⟨b, hb, rfl⟩ := mem_recovered.1 ha
    exact hinv.commit_le b (hmem b hb)
  have hhist : history (tr ++ [.opened (TxnDb.recovered M)]) = TxnDb.recovered M :=
    history_append_singleton
  have hiss : issued (tr ++ [.opened (TxnDb.recovered M)]) = highest (TxnDb.recovered M) :=
    issued_append_singleton
  have hc : Coordinated ⟨⟨(replay (TxnDb.recovered M)).2,
      .recovered (highest (TxnDb.recovered M)), log⟩, s.handles.map fun _ => .closed, []⟩
      (highest (TxnDb.recovered M)) :=
    .of_closed hhandle (Oracle.tracks_recovered (hhigh.trans_lt hinv.tracks.lt))
      Oracle.registers_recovered
  refine ⟨hiss.symm ▸ hc, ?_, nofun, fun k => ?_, ?_, ?_, ?_, ?_, ?_, ?_⟩
  -- fewer timestamps are in use than were handed out
  · rw [hiss, allocations_append]
    exact (hhigh.trans hinv.issued_le).trans (Nat.le_add_right _ _)
  -- the chains are whole: nothing is pruned yet
  · refine ⟨0, ⟨Nat.zero_le _, fun h r _ => Nat.zero_le r⟩, ?_⟩
    rw [hhist, replay_chain]
    · exact Pruned.refl _ _
    · intro a ha
      obtain ⟨b, hb, rfl⟩ := mem_recovered.1 ha
      exact hkeys b hb
  · rw [hhist]
    exact hvalid
  · rw [hhist]
    intro a ha
    exact (hvalid.lt a ha).le.trans (le_highest ha)
  · rw [hhist, hiss]
    exact fun a ha => le_highest ha
  -- no handle is left
  · intro h a stage hh
    rw [hhandle] at hh
    cases hh
  · rw [hhist]
    intro a ha
    obtain ⟨b, hb, rfl⟩ := mem_recovered.1 ha
    rw [hhandle, List.length_map]
    exact ⟨(hinv.past b (hmem b hb)).1, trivial⟩
  · rw [hhist, (recovered_perm.map _).nodup_iff, List.map_map]
    exact hinj hinv.nodup_id

end TxnDb
