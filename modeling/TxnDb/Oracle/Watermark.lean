import Mathlib.Tactic.IntervalCases
import TxnDb.Oracle.Linearize

/-!
# The watermark of concurrent clients

The calls of the oracle overlap, and what they return is as if they were made one after the other.
So in every run of concurrent calls, whoever reads the watermark gets one below which every
timestamp handed out has been reported, and no lower than those whose reports had returned before
(`Oracle.watermark_seen`), if the clients report what was handed out to them, once
(`Oracle.Reports`).
-/

namespace TxnDb.Oracle

variable {L L₁ L₂ : List (Atomic.Atom Op (Option ℕ))} {a : Atomic.Atom Op (Option ℕ)}
  {tr : List (Atomic.Event Op (Option ℕ))} {s : Machine} {o x : Oracle} {highest N p q r w ts : ℕ}
  {op : Op}

/-- The timestamp was handed out. -/
def Allocated (L : List (Atomic.Atom Op (Option ℕ))) (ts : ℕ) : Prop :=
  ∃ a ∈ L, a.op = .allocCommitTs ∧ a.ans = some ts

/-- The timestamp was reported. -/
def Reported (L : List (Atomic.Atom Op (Option ℕ))) (ts : ℕ) : Prop :=
  ∃ a ∈ L, a.op = .commitDone ts

/-- Every report is of a timestamp handed out before, and not reported yet. -/
def Fair (L : List (Atomic.Atom Op (Option ℕ))) : Prop :=
  ∀ L₁ a L₂ ts, L = L₁ ++ a :: L₂ → a.op = .commitDone ts → Allocated L₁ ts ∧ ¬Reported L₁ ts

/-- How many timestamps were handed out. -/
def allocs (L : List (Atomic.Atom Op (Option ℕ))) : ℕ := L.countP fun a => a.op = .allocCommitTs

theorem allocated_append : Allocated (L ++ [a]) ts ↔
    Allocated L ts ∨ a.op = .allocCommitTs ∧ a.ans = some ts := by
  simp [Allocated, or_and_right, exists_or]

theorem reported_append : Reported (L ++ [a]) ts ↔ Reported L ts ∨ a.op = .commitDone ts := by
  simp [Reported, or_and_right, exists_or]

theorem allocs_append : allocs (L ++ [a]) = allocs L + if a.op = .allocCommitTs then 1 else 0 := by
  simp [allocs, List.countP_append, List.countP_singleton]

theorem Fair.of_append (h : Fair (L₁ ++ L₂)) : Fair L₁ := fun M a M' ts hcut =>
  h M a (M' ++ L₂) ts (by rw [hcut, List.append_assoc, List.cons_append])

/-- The timestamps handed out, and those in flight, when the calls are made one after the other. -/
structure Tracked (highest : ℕ) (L : List (Atomic.Atom Op (Option ℕ))) (x : Oracle) : Prop where
  tracks : x.Tracks (highest + allocs L) fun t => Allocated L t ∧ ¬Reported L t
  allocated : ∀ t, Allocated L t ↔ highest < t ∧ t ≤ highest + allocs L
  reported : ∀ t, Reported L t → Allocated L t

namespace Tracked

/-- A call that neither hands out a timestamp nor reports one. -/
theorem other (h : Tracked highest L x) {x' : Oracle} (halloc : a.op ≠ .allocCommitTs)
    (hreport : ∀ ts, a.op ≠ .commitDone ts) (hnext : x'.nextTs = x.nextTs)
    (hread : x'.readTs = x.readTs) (hpending : x'.pending = x.pending) :
    Tracked highest (L ++ [a]) x' := by
  have hall : ∀ t, Allocated (L ++ [a]) t ↔ Allocated L t := fun t =>
    allocated_append.trans (or_iff_left fun h => halloc h.1)
  have hrep : ∀ t, Reported (L ++ [a]) t ↔ Reported L t := fun t =>
    reported_append.trans (or_iff_left (hreport t))
  have hcount : allocs (L ++ [a]) = allocs L := by rw [allocs_append, if_neg halloc]; rfl
  constructor
  · rw [hcount]
    exact (h.tracks.congr_readers hnext hread hpending).congr fun t => by rw [hall, hrep]
  · intro t
    rw [hall, hcount]
    exact h.allocated t
  · intro t ht
    rw [hall]
    exact h.reported t ((hrep t).1 ht)

theorem alloc (h : Tracked highest L x) (hlt : highest + allocs L + 1 < 2 ^ 64) (q : ℕ) :
    Tracked highest (L ++ [⟨q, .allocCommitTs, some x.allocCommitTs.1⟩]) x.allocCommitTs.2 := by
  obtain ⟨hts, htracks⟩ := h.tracks.alloc hlt
  have hcount : allocs (L ++ [⟨q, .allocCommitTs, some x.allocCommitTs.1⟩]) = allocs L + 1 := by
    rw [allocs_append, if_pos rfl]
  have hall : ∀ t, Allocated (L ++ [⟨q, .allocCommitTs, some x.allocCommitTs.1⟩]) t ↔
      Allocated L t ∨ t = highest + allocs L + 1 := fun t => by
    simp [allocated_append, hts, eq_comm]
  have hrep : ∀ t, Reported (L ++ [⟨q, .allocCommitTs, some x.allocCommitTs.1⟩]) t ↔
      Reported L t := fun t => reported_append.trans (or_iff_left nofun)
  constructor
  · rw [hcount]
    refine htracks.congr fun t => ?_
    rw [hall, hrep]
    constructor
    · rintro ⟨hold | hnew, hnot⟩
      · exact .inl ⟨hold, hnot⟩
      · exact .inr hnew
    · rintro (⟨hold, hnot⟩ | rfl)
      · exact ⟨.inl hold, hnot⟩
      · -- a timestamp above those handed out was not reported
        exact ⟨.inr rfl, fun hnew => absurd ((h.allocated _).1 (h.reported _ hnew)).2 (by omega)⟩
  · intro t
    rw [hall, hcount, h.allocated]
    omega
  · intro t ht
    exact (hall t).2 (.inl (h.reported t ((hrep t).1 ht)))

theorem report (h : Tracked highest L x) (q : ℕ) (halloc : Allocated L ts)
    (hnot : ¬Reported L ts) :
    Tracked highest (L ++ [⟨q, .commitDone ts, none⟩]) (x.commitDone ts) := by
  have hall : ∀ t, Allocated (L ++ [⟨q, .commitDone ts, none⟩]) t ↔ Allocated L t := fun t =>
    allocated_append.trans (or_iff_left nofun)
  have hrep : ∀ t, Reported (L ++ [⟨q, .commitDone ts, none⟩]) t ↔ Reported L t ∨ t = ts :=
    fun t => by simp [reported_append, eq_comm]
  have hcount : allocs (L ++ [⟨q, .commitDone ts, none⟩]) = allocs L := by
    rw [allocs_append, if_neg nofun]
    rfl
  constructor
  · rw [hcount]
    refine (h.tracks.done ⟨halloc, hnot⟩).2.congr fun t => ?_
    rw [hall, hrep, not_or, and_assoc]
  · intro t
    rw [hall, hcount, h.allocated]
  · intro t ht
    rw [hall]
    rcases (hrep t).1 ht with hold | rfl
    · exact h.reported t hold
    · exact halloc

theorem le_readTs (h : Tracked highest L x) : highest ≤ x.readTs := by
  refine (h.tracks.le_readTs_iff (Nat.le_add_right _ _)).2 fun t hle ⟨halloc, _⟩ => ?_
  exact absurd ((h.allocated t).1 halloc).1 (not_lt.2 hle)

/-- What is at or below the watermark was reported. -/
theorem reported_of_le (h : Tracked highest L x) (hlo : highest < ts) (hts : ts ≤ x.readTs) :
    Reported L ts := by
  have hN := hts.trans h.tracks.le
  by_contra hnot
  exact (h.tracks.le_readTs_iff hN).1 hts ts le_rfl ⟨(h.allocated ts).2 ⟨hlo, hN⟩, hnot⟩

/-- The watermark is as high as it can be. -/
theorem not_reported_succ (h : Tracked highest L x) : ¬Reported L (x.readTs + 1) := fun hrep => by
  have hN := ((h.allocated _).1 (h.reported _ hrep)).2
  refine Nat.not_succ_le_self x.readTs ((h.tracks.le_readTs_iff hN).2 fun t hle hF => ?_)
  rcases Nat.le_succ_iff.1 hle with hle | rfl
  · exact (h.tracks.le_readTs_iff (hle.trans h.tracks.le)).1 hle t le_rfl hF
  · exact hF.2 hrep

end Tracked

/-- Fair calls made one after the other keep track of the timestamps. -/
theorem tracked_of_run (hrun : Trace.Run (Atomic.sequential apply) (recovered highest) L x)
    (hfair : Fair L) (hlt : highest + allocs L < 2 ^ 64) : Tracked highest L x := by
  revert hfair hlt
  refine hrun.invariant (motive := fun L x => Fair L → highest + allocs L < 2 ^ 64 →
    Tracked highest L x) ?_ ?_
  · intro _ hlt
    have hnone : ∀ t, ¬Allocated [] t := fun t ⟨a, ha, _⟩ => nomatch ha
    refine ⟨(tracks_recovered hlt).congr fun t => ?_, fun t => ?_, fun t ⟨a, ha, _⟩ => nomatch ha⟩
    · exact iff_of_false (fun h => hnone t h.1) id
    · refine iff_of_false (hnone t) fun ⟨h, h'⟩ => ?_
      exact absurd h (not_lt.2 h')
  · rintro L x a x' - ih ⟨⟨q, op⟩, hstep⟩ hfair hlt
    obtain ⟨rfl, rfl⟩ := Prod.mk.inj (Option.some.inj hstep)
    rw [allocs_append] at hlt
    have ht := ih hfair.of_append (by omega)
    cases op with
    | allocCommitTs => exact ht.alloc hlt q
    | commitDone ts =>
      obtain ⟨halloc, hnot⟩ := hfair L _ [] ts rfl rfl
      exact ht.report q halloc hnot
    | endReader ts =>
      exact ht.other nofun nofun (nextTs_endReader x ts) (readTs_endReader x ts)
        (pending_endReader x ts)
    | readTs | beginReader | lowWatermark => exact ht.other nofun nofun rfl rfl rfl

/-- The clients report a timestamp once it was handed out to them, and once only. -/
structure Reports (tr : List (Atomic.Event Op (Option ℕ))) : Prop where
  allocated : ∀ pre q ts post, tr = pre ++ .started q (.commitDone ts) :: post →
    ∃ p, .started p .allocCommitTs ∈ pre ∧ .returned p (some ts) ∈ pre
  once : ∀ p q ts, .started p (.commitDone ts) ∈ tr → .started q (.commitDone ts) ∈ tr → p = q

/-- A call that returned before the call `a` started comes before it. -/
theorem mem_of_returned (hL : Atomic.Linearizes apply o tr (L₁ ++ a :: L₂) x)
    {pre post : List (Atomic.Event Op (Option ℕ))} {ans : Option ℕ} (htr : tr = pre ++ post)
    (hp : .started p op ∈ pre) (hret : .returned p ans ∈ pre) (ha : .started a.name a.op ∈ post) :
    ∃ b ∈ L₁, b.op = op ∧ b.ans = ans := by
  obtain ⟨b, hb, rfl, hans⟩ := hL.order L₁ a L₂ pre post p ans rfl htr hret ha
  have hstarted := hL.started b (List.mem_append_left _ hb)
  exact ⟨b, hb, hL.names _ _ _ hstarted (htr ▸ List.mem_append_left _ hp), hans⟩

theorem Reports.fair (h : Reports tr) (hL : Atomic.Linearizes apply o tr L x) : Fair L := by
  rintro L₁ a L₂ ts rfl hop
  have hstarted := hL.started a (List.mem_append_right _ List.mem_cons_self)
  obtain ⟨pre, post, htr⟩ := List.append_of_mem hstarted
  refine ⟨?_, fun ⟨b, hb, hop'⟩ => ?_⟩
  · rw [hop] at htr
    obtain ⟨p, hp, hret⟩ := h.allocated pre a.name ts post htr
    exact mem_of_returned hL htr hp hret (by rw [hop]; exact List.mem_cons_self)
  · -- else one of the two is reported twice
    have hstarted' := hL.started b (List.mem_append_left _ hb)
    rw [hop] at hstarted
    rw [hop'] at hstarted'
    have hname := h.once _ _ ts hstarted hstarted'
    have honce := hL.once
    rw [List.map_append, List.map_cons] at honce
    exact (List.nodup_append.1 honce).2.2 b.name (List.mem_map_of_mem hb) a.name
      List.mem_cons_self hname.symm

/-- The calls that read the watermark. -/
def Op.Reads (op : Op) : Prop := op = .readTs ∨ op = .beginReader

/-- In every run of clients that report the timestamps handed out to them, a reader that begins
    gets a watermark below which every timestamp is being reported, and as high as those
    reported before it began. -/
theorem watermark_seen (hrun : Machine.Run (recovered highest) tr s) (hreports : Reports tr)
    (hlt : highest + tr.countP (Atomic.Event.starts (· = .allocCommitTs)) < 2 ^ 64)
    {pre post : List (Atomic.Event Op (Option ℕ))} (htr : tr = pre ++ .started q op :: post)
    (hop : op.Reads) (hret : .returned q (some r) ∈ tr) :
    highest ≤ r ∧ (∀ ts, highest < ts → ts ≤ r → ∃ p, .started p (.commitDone ts) ∈ tr) ∧
      ∀ n, (∀ ts, highest < ts → ts ≤ n → ∃ p, .started p (.commitDone ts) ∈ pre ∧
        .returned p none ∈ pre) → n ≤ r := by
  obtain ⟨L, t, -, hL⟩ := Machine.exists_sim hrun
  have hfair := hreports.fair hL
  have hcount : highest + allocs L < 2 ^ 64 :=
    (Nat.add_le_add_left (hL.countP_le (· = .allocCommitTs)) _).trans_lt hlt
  obtain ⟨a, ha, rfl, hans⟩ := hL.returned q (some r) hret
  have hq : .started a.name op ∈ tr := htr ▸ List.mem_append_right _ List.mem_cons_self
  obtain rfl := hL.names _ _ _ (hL.started a ha) hq
  obtain ⟨L₁, L₂, rfl⟩ := List.append_of_mem ha
  obtain ⟨m, hrun₁, hm, -⟩ := hL.cut
  have hread : r = m.readTs := by
    rw [hans] at hm
    rcases hop with hop | hop <;> rw [hop] at hm <;> exact Option.some.inj hm
  subst hread
  rw [allocs, List.countP_append] at hcount
  have ht := tracked_of_run hrun₁ hfair.of_append (by rw [allocs]; omega)
  refine ⟨ht.le_readTs, fun ts hlo hts => ?_, fun n hn => ?_⟩
  · obtain ⟨b, hb, hb'⟩ := ht.reported_of_le hlo hts
    exact ⟨b.name, hb' ▸ hL.started b (List.mem_append_left _ hb)⟩
  · by_contra hn'
    have hhigh := ht.le_readTs
    obtain ⟨p, hp, hpret⟩ := hn (m.readTs + 1) (by omega) (by omega)
    obtain ⟨b, hb, hb', -⟩ := mem_of_returned hL htr hp hpret List.mem_cons_self
    exact ht.not_reported_succ ⟨b, hb, hb'⟩

theorem reports_overlapping : Reports overlappingTrace where
  allocated pre q ts post htr := by
    have hpre := congrArg (List.take pre.length) htr
    have hget := congrArg (·[pre.length]?) htr
    rw [List.take_left] at hpre
    simp only [List.getElem?_append_right, le_refl, Nat.sub_self, List.getElem?_cons_zero] at hget
    rw [← hpre]
    generalize pre.length = i at hget
    have hlt : i < 33 := (List.getElem?_eq_some_iff.1 hget).1
    interval_cases i <;> cases hget
    · exact ⟨0, by decide⟩
    · exact ⟨1, by decide⟩
  once p q ts hp hq := by
    simp [overlappingTrace] at hp hq
    omega

/-- The one that loads the watermark last. -/
theorem watermark_seen_overlapping : ∃ p, .started p (.commitDone 2) ∈ overlappingTrace := by
  obtain ⟨s, hexec, -⟩ := exec_overlapping
  have hrun : Machine.Run (recovered 0) overlappingTrace s := Trace.run_of_exec hexec
  have htr : overlappingTrace =
    overlappingTrace.take 30 ++ .started 6 .readTs :: [.ran, .returned 6 (some 2)] := rfl
  have hret : .returned 6 (some 2) ∈ overlappingTrace := by decide
  exact (watermark_seen hrun reports_overlapping (by decide) htr (.inl rfl) hret).2.1 2
    (by decide) le_rfl

end TxnDb.Oracle
