import TxnDb.Lib.Consistency
import TxnDb.Outcomes
import TxnDb.Serializability

/-!
# Consistency

A predicate that each transaction keeps, when it runs on its own, is one that every handle sees
to hold, at any time, provided that the transactions that commit are serializable, or write what
they read (`sees_consistent`): whatever the clients do at the same time, and across crashes.
So does what is found when the database is opened again, although a crash may have lost any of
the transactions underway.

Appends must not fail: a transaction whose append has failed is read, and then lost.
-/

namespace TxnDb

open Mvcc

variable {tr : List Event} {s₀ s s' : Sys} {h r : ℕ} {e : Event} {a b : Attempt} {k : Key}
  {log : CommitLog} {B N M : List Attempt} {I : (Key → Option Value) → Prop}

/-- The commit of the transaction validates what it has read: it is serializable, or writes the
    keys it has read from the store. -/
def Guarded (tr : List Event) (a : Attempt) : Prop :=
  Serializable tr a.id ∨ ∀ r k v, .got a.id r k v false ∈ tr → a.Writes k

/-- A transaction that has buffered a write of each key that it reads need not be serializable. -/
theorem Reached.guarded (hr : Reached tr s) (hc : .committed a ∈ tr)
    (h : ∀ k v, .get k v ∈ session tr a.id → buffered (session tr a.id) k ≠ none) :
    Guarded tr a := by
  refine .inr fun r k v hg => ?_
  have hne := h k v (List.mem_filterMap.2 ⟨_, hg, if_pos rfl⟩)
  rw [(hr.programs hc).writes k] at hne
  exact not_not.1 (mt Txn.not_writes_iff.1 hne)

/-- The transactions that commit validate what they have read, and keep `I`. -/
structure Careful (I : (Key → Option Value) → Prop) (tr : List Event) : Prop where
  guarded : ∀ a, .committed a ∈ tr → Guarded tr a
  keeps : ∀ a, .committed a ∈ tr → Keeps I (session tr a.id)

/-- The session of a transaction that has committed is over. -/
theorem Reached.session_eq (hr : Reached tr s) (hstep : Step s e s') (hc : .committed a ∈ tr) :
    session (tr ++ [e]) a.id = session tr a.id := by
  obtain ⟨-, -, hpast⟩ := hr.committed hc
  refine session_append_of_none (hstep.op_eq_none (fun r hh => ?_) fun tx hh => ?_) <;>
    · rw [hh] at hpast
      exact hpast

theorem Careful.of_append (hcare : Careful I (tr ++ [e])) (hr : Reached tr s)
    (hstep : Step s e s') : Careful I tr := by
  have hmono : ∀ {e'}, e' ∈ tr → e' ∈ tr ++ [e] := List.mem_append_left _
  refine ⟨fun a hc => ?_, fun a hc => ?_⟩
  · refine (hcare.guarded a (hmono hc)).imp
      (hstep.serializable_append (hr.committed hc).2.1).1 fun hall r k v hg => ?_
    exact hall r k v (hmono hg)
  · rw [← hr.session_eq hstep hc]
    exact hcare.keeps a (hmono hc)

/-- The history is that of the transactions `B` found on opening the database, which leave a map
    that satisfies `I`, and of `N`, committed since. -/
structure Consistent (I : (Key → Option Value) → Prop) (tr : List Event) (s : Sys)
    (B N : List Attempt) : Prop where
  history_eq : history tr = B ++ N
  committed : ∀ a ∈ N, .committed a ∈ tr ∧ ∃ kind, .began a.id kind a.readTs ∈ cycle tr
  base : I (current B)
  le : ∀ b ∈ B, b.commitTs ≤ s.inner.readTs
  began : ∀ {h kind r}, .began h kind r ∈ cycle tr → ∀ b ∈ B, b.commitTs ≤ r

namespace Consistent

variable (hcons : Consistent I tr s B N) (hr : Reached tr s) (hcare : Careful I tr)

include hcons hr

theorem valid : Validated (B ++ N) := hcons.history_eq ▸ hr.valid

theorem buffered (ha : a ∈ N) (k : Key) :
    buffered (session tr a.id) k = a.writes.dlookup k :=
  (hr.programs (hcons.committed a ha).1).writes k

theorem replays (ha : a ∈ N) : Replays (snapshot (B ++ N) a.readTs) (session tr a.id) := by
  obtain ⟨-, kind, hb⟩ := hcons.committed a ha
  exact hcons.history_eq ▸ (hr.replays hb).2

include hcare

theorem touches (ha : a ∈ N) (hk : ReadsFresh k (session tr a.id)) : a.Touches k := by
  have hc := (hcons.committed a ha).1
  rcases hcare.guarded a hc with hs | hw
  · exact hr.touches hc hs hk
  · obtain ⟨r, v, hg⟩ := hr.fresh.1 hk
    exact .inl (hw r k v hg)

/-- What is seen at a timestamp that is not below those of `B` satisfies `I`. -/
theorem keeps_snapshot (hle : ∀ b ∈ B, b.commitTs ≤ r) : I (snapshot (history tr) r) := by
  rw [hcons.history_eq]
  exact (hcons.valid hr).keeps_snapshot (fun a ha => hcons.buffered hr ha)
    (fun a ha => hcons.replays hr ha) (fun a ha k => hcons.touches hr hcare ha)
    (fun a ha => hcare.keeps a (hcons.committed a ha).1) hcons.base hle

end Consistent

/-! ## Opening the database again -/

/-- The transactions found on opening the database leave what they left, applied in their order. -/
theorem Reached.current_recovered (hr : Reached tr s)
    (hr' : Reached (tr ++ [.opened (recovered M)]) s') (hmem : ∀ a ∈ M, a ∈ history tr) :
    current (recovered M) = current ((history tr).filter (· ∈ M)) := by
  funext k
  have hasc : Ascending (versions (recovered M) k) := by
    have hvalid := hr'.valid
    rw [history_append_singleton] at hvalid
    exact hvalid.ascending k
  refine current_congr hasc ((hr.valid.ascending k).sublist (List.filter_sublist.filterMap _))
    fun u => ?_
  rw [mem_versions, mem_versions]
  constructor
  · rintro ⟨_, ha, hw, hts⟩
    obtain ⟨b, hb, rfl⟩ := mem_recovered.1 ha
    exact ⟨b, List.mem_filter.2 ⟨hmem b hb, decide_eq_true hb⟩, hw, hts⟩
  · rintro ⟨b, hb, hw, hts⟩
    have hb := of_decide_eq_true (List.mem_filter.1 hb).2
    exact ⟨replayed b, mem_recovered.2 ⟨b, hb, rfl⟩, hw, hts⟩

/-- With each transaction, those that it has seen are found, and so are those found before. -/
theorem Consistent.recovered (hcons : Consistent I tr s B N) (hr : Reached tr s)
    (hcare : Careful I tr) (hr' : Reached (tr ++ [.opened (recovered M)]) s')
    (hmem : ∀ a ∈ M, a ∈ history tr)
    (hlogged : ∀ b ∈ history tr, b.commitTs ≤ s.inner.readTs → b ∈ M) :
    I (current (recovered M)) := by
  have hB : B.filter (· ∈ M) = B := List.filter_eq_self.2 fun b hb => decide_eq_true
    (hlogged b (hcons.history_eq ▸ List.mem_append_left _ hb) (hcons.le b hb))
  rw [hr.current_recovered hr' hmem, hcons.history_eq, List.filter_append, hB]
  refine (hcons.valid hr).keeps_filter (fun a ha => hcons.buffered hr ha)
    (fun a ha => hcons.replays hr ha) (fun a ha k => hcons.touches hr hcare ha)
    (fun a ha => hcare.keeps a (hcons.committed a ha).1) hcons.base fun a ha _ b hb hba => ?_
  have hN : ∀ {c}, c ∈ N → c ∈ history tr := fun hc =>
    hcons.history_eq ▸ List.mem_append_right _ hc
  exact hlogged b (hN hb) (hba.trans (hr.read_le a (hN ha)))

/-! ## Runs -/

theorem Consistent.step_opened {L : List Attempt} (hcons : Consistent I tr s B N)
    (hr : Reached tr s) (hcare : Careful I tr) (hnofail : ∀ a d, .appended a (some d) ∉ tr)
    (hfit : ∀ a, .committed a ∈ tr → Fits a.writes) (hr' : Reached (tr ++ [.opened L]) s')
    (hstep : Step s (.opened L) s') : Consistent I (tr ++ [.opened L]) s' L [] := by
  cases hstep with
  | opened hlog hsub hperm hopen hrec =>
    obtain ⟨M, rfl, -, hmem, hopen', hrec'⟩ := hr.toLogged.crash hr.toInv hfit hlog hsub hperm
    rw [hopen] at hopen'
    rw [hrec] at hrec'
    obtain rfl := Except.ok.inj hopen'
    obtain rfl := Except.ok.inj hrec'
    refine ⟨by rw [history_append_singleton]; exact (List.append_nil _).symm, nofun, ?_,
      fun b hb => le_highest hb, fun hb => ?_⟩
    · refine hcons.recovered hr hcare hr' (fun a ha => (hmem a ha).1) fun b hb hle => ?_
      -- what was below the watermark is in the log
      have hb' := (hr.logged_of_le hlog hb hle).resolve_right fun ⟨d, hd⟩ => hnofail b d hd
      obtain ⟨c, hc, hcb⟩ := List.mem_map.1 (hperm.symm.subset (List.mem_append_left _ hb'))
      exact List.inj_on_of_nodup_map hr.nodup_id (hmem c hc).1 hb (congrArg Record.owner hcb) ▸ hc
    · rw [cycle_append_opened] at hb
      cases hb

theorem Consistent.step (hcons : Consistent I tr s B N) (hr : Reached tr s)
    (hr' : Reached (tr ++ [e]) s') (hstep : Step s e s') (hopen : ∀ L, e ≠ .opened L) :
    ∃ N', Consistent I (tr ++ [e]) s' B N' := by
  have hcycle : cycle (tr ++ [e]) = cycle tr ++ [e] := cycle_append_of_ne hopen
  have hle : ∀ b ∈ B, b.commitTs ≤ s'.inner.readTs := fun b hb =>
    (hcons.le b hb).trans (hr.toTimestamped.readTs_le hstep hopen)
  have hbegan : ∀ {h kind r}, .began h kind r ∈ cycle (tr ++ [e]) → ∀ b ∈ B, b.commitTs ≤ r := by
    intro h kind r hb
    rw [hcycle] at hb
    rcases List.mem_append.1 hb with hb | hb
    · exact hcons.began hb
    · obtain rfl := List.mem_singleton.1 hb
      cases hstep with
      | began => exact hcons.le
  have hold : ∀ a ∈ N, .committed a ∈ tr ++ [e] ∧
      ∃ kind, .began a.id kind a.readTs ∈ cycle (tr ++ [e]) := fun a ha => by
    obtain ⟨hc, kind, hb⟩ := hcons.committed a ha
    exact ⟨List.mem_append_left _ hc, kind, hcycle ▸ List.mem_append_left _ hb⟩
  by_cases hc : ∃ a, e = .committed a
  · obtain ⟨a, rfl⟩ := hc
    refine ⟨N ++ [a], ?_, fun b hb => ?_, hcons.base, hle, hbegan⟩
    · rw [history_append_singleton, Event.extend, hcons.history_eq, List.append_assoc]
    · rcases List.mem_append.1 hb with hb | hb
      · exact hold b hb
      · obtain rfl := List.mem_singleton.1 hb
        cases hstep with
        | committed hh =>
          obtain ⟨kind, hb⟩ := hr.began (congrArg Handle.readTs hh)
          rw [(hr.attempts hh).id, hcycle]
          exact ⟨by simp, kind, List.mem_append_left _ hb⟩
  · refine ⟨N, ?_, hold, hcons.base, hle, hbegan⟩
    rw [history_append_singleton, ← hcons.history_eq]
    cases e with
    | committed a => exact absurd ⟨a, rfl⟩ hc
    | opened L => exact absurd rfl (hopen L)
    | _ => rfl

theorem consistent_of_run (h₀ : s₀.Fresh) (hrun : Run s₀ tr s) (hlt : allocations tr < 2 ^ 64)
    (hfit : Recoverable tr) (hnofail : ∀ a d, .appended a (some d) ∉ tr)
    (hinit : I fun _ => none) (hcare : Careful I tr) : ∃ B N, Consistent I tr s B N := by
  refine (reached_nil h₀).invariant (motive := fun tr s => Recoverable tr →
    (∀ a d, .appended a (some d) ∉ tr) → Careful I tr → ∃ B N, Consistent I tr s B N) hrun hlt
    hfit (fun _ _ _ => ⟨[], [], rfl, nofun, hinit, nofun, nofun⟩) ?_ hfit hnofail hcare
  intro tr s e s' hr hr' ih hstep hfit hnofail hcare
  have hnofail' : ∀ a d, .appended a (some d) ∉ tr := fun a d ha =>
    hnofail a d (List.mem_append_left _ ha)
  have hcare' : Careful I tr := hcare.of_append hr hstep
  obtain ⟨B, N, hcons⟩ := ih hfit.of_append hnofail' hcare'
  by_cases hopen : ∃ L, e = .opened L
  · obtain ⟨L, rfl⟩ := hopen
    refine ⟨L, [], hcons.step_opened hr hcare' hnofail' (fun a ha => ?_) hr' hstep⟩
    exact hfit ⟨L, by simp⟩ a (List.mem_append_left _ ha)
  · exact ⟨B, hcons.step hr hr' hstep (not_exists.1 hopen)⟩

/-- What a reader sees, that begins now or is alive, satisfies what careful transactions keep. -/
theorem Consistent.sees (hcons : Consistent I tr s B N) (hr : Reached tr s)
    (hcare : Careful I tr) : (I fun k => s.inner.store.get k s.inner.readTs) ∧
      ∀ h r, (s.handle h).readTs = some r → I fun k => s.inner.store.get k r := by
  have hsees : ∀ {r}, s.Sees r → (∀ b ∈ B, b.commitTs ≤ r) → I fun k => s.inner.store.get k r := by
    intro r hsees hle
    rw [show (fun k => s.inner.store.get k r) = snapshot (history tr) r from
      funext (hr.get_eq hsees)]
    exact hcons.keeps_snapshot hr hcare hle
  refine ⟨hsees s.sees_readTs hcons.le, fun h r hh => ?_⟩
  obtain ⟨kind, hb⟩ := hr.began hh
  exact hsees (Sys.sees_of_readTs hh) (hcons.began hb)

/-- In every run in which no append fails, and the transactions that commit validate what they
    have read and keep `I` on their own, `I` holds at any time of what every handle reads, and of
    what a new one will. -/
theorem sees_consistent (h₀ : s₀.Fresh) (hrun : Run s₀ tr s) (hlt : allocations tr < 2 ^ 64)
    (hfit : Recoverable tr) (hnofail : ∀ a d, .appended a (some d) ∉ tr)
    (hinit : I fun _ => none) (hcare : Careful I tr) :
    (I fun k => s.inner.store.get k s.inner.readTs) ∧
      ∀ h r, (s.handle h).readTs = some r → I fun k => s.inner.store.get k r := by
  obtain ⟨B, N, hcons⟩ := consistent_of_run h₀ hrun hlt hfit hnofail hinit hcare
  exact hcons.sees (reached_of_run h₀ hrun hlt hfit) hcare

/-! Two clients set two keys to the same value: the second one reads what the first one wrote, and
its record is lost in a crash. -/

/-- The transaction of `h`, that sets the keys to `v`. -/
def setting (h readTs commitTs : ℕ) (v : Value) : Attempt :=
  ⟨h, readTs, commitTs, [⟨[120], some v⟩, ⟨[121], some v⟩], []⟩

def settingRun : List Action :=
  [.begin .transaction, .put 0 [120] [1], .put 0 [121] [1], .commit 0 (setting 0 0 1 [1]).writes [],
    .tryCommit 0, .append 0, .appended 0 none, .commitDone 0, .drop 0, .begin .serializable,
    .get 1 [120], .put 1 [120] [2], .put 1 [121] [2], .commit 1 (setting 1 1 2 [2]).writes [],
    .tryCommit 1, .append 1, .crash [] [record (setting 0 0 1 [1])], .begin .snapshot]

def settingTrace : List Event :=
  [.began 0 .transaction 0, .wrote 0 [120] (some [1]), .wrote 0 [121] (some [1]),
    .allocated (setting 0 0 1 [1]), .committed (setting 0 0 1 [1]),
    .appending (setting 0 0 1 [1]), .appended (setting 0 0 1 [1]) none,
    .reported (setting 0 0 1 [1]), .returned 0 (.ok 1), .began 1 .serializable 1,
    .got 1 1 [120] (some [1]) false, .wrote 1 [120] (some [2]), .wrote 1 [121] (some [2]),
    .allocated (setting 1 1 2 [2]), .committed (setting 1 1 2 [2]),
    .appending (setting 1 1 2 [2]), .opened (recovered [setting 0 0 1 [1]]), .began 2 .snapshot 1]

theorem exec_settingRun : (Trace.exec Sys.step .create settingRun).map (Prod.map id fun s =>
    (s.handle 2, s.inner.store.get [120] 1)) = some (settingTrace, .reading 1, some [1]) := by
  decide +kernel

theorem sees_consistent_setting : ∃ s, Run .create settingTrace s ∧
    s.inner.store.get [120] 1 = some [1] ∧ s.inner.store.get [121] 1 = some [1] := by
  obtain ⟨s, hrun, hs⟩ := run_of_exec exec_settingRun
  obtain ⟨hhandle, hget⟩ := Prod.mk.inj hs
  have hcommitted : ∀ a, .committed a ∈ settingTrace →
      a = setting 0 0 1 [1] ∨ a = setting 1 1 2 [2] := fun a ha => by
    simpa [settingTrace] using ha
  have hfit : Recoverable settingTrace := fun _ a ha => by
    rcases hcommitted a ha with rfl | rfl <;> decide
  have hcare : Careful (fun m => m [120] = m [121]) settingTrace := by
    refine ⟨fun a ha => ?_, fun a ha m hm hrep => ?_⟩
    · rcases hcommitted a ha with rfl | rfl
      · exact .inr fun r k v hg => by simp [settingTrace, setting] at hg
      · exact .inl ⟨1, by simp [settingTrace, setting]⟩
    · -- whoever it is, it writes one value to both keys
      rcases hcommitted a ha with rfl | rfl <;> rfl
  have hall := (sees_consistent (I := fun m => m [120] = m [121]) (.inr rfl) hrun (by decide) hfit
    (by simp [settingTrace]) rfl hcare).2 2 1 (by rw [hhandle]; rfl)
  exact ⟨s, hrun, hget, hall.symm.trans hget⟩

end TxnDb
