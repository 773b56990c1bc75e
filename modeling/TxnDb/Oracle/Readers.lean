import TxnDb.Oracle.Linearize

/-!
# The low watermark of concurrent clients

In every run of concurrent calls of the oracle, no low watermark is above a reader alive, be it
one that began before the low watermark was asked for, while it was, or after
(`Oracle.low_watermark_le`), whatever the clients do: the versions that a reader sees are not
reclaimed.
-/

namespace TxnDb.Oracle

variable {L L₁ L₂ : List (Atomic.Atom Op (Option ℕ))} {a : Atomic.Atom Op (Option ℕ)}
  {tr : List (Atomic.Event Op (Option ℕ))} {s : Machine} {o x : Oracle} {highest N p q r w ts : ℕ}
  {op : Op}

def Op.isReport : Op → Bool
  | .commitDone _ => true
  | _ => false

/-- How many timestamps were reported. -/
def reports (L : List (Atomic.Atom Op (Option ℕ))) : ℕ := L.countP fun a => a.op.isReport

/-- How many readers began at `r`. -/
def begun (L : List (Atomic.Atom Op (Option ℕ))) (r : ℕ) : ℕ :=
  L.countP fun a => a.op = .beginReader ∧ a.ans = some r

/-- How many calls ended a reader at `r`. -/
def ended (L : List (Atomic.Atom Op (Option ℕ))) (r : ℕ) : ℕ :=
  L.countP fun a => a.op = .endReader r

/-- The watermark is at `N` at most, once everything is reported. -/
structure Ceiling (N : ℕ) (x : Oracle) : Prop where
  doneUpto : x.pending.doneUpto = x.readTs
  le : x.readTs + x.pending.ahead.card ≤ N

/-- Whatever the call is, the watermark does not move back. -/
theorem Ceiling.apply (h : Ceiling N x) (hlt : N + (if op.isReport then 1 else 0) < 2 ^ 64) :
    Ceiling (N + if op.isReport then 1 else 0) (x.apply op).2 ∧
      x.readTs ≤ (x.apply op).2.readTs := by
  cases op with
  | commitDone ts =>
    have hle := h.le
    obtain ⟨hdone, hread, hcard⟩ := commitDone_advance ts h.doneUpto (by
      simp only [Op.isReport, if_true] at hlt
      omega)
    exact ⟨⟨hdone, hcard.trans (Nat.add_le_add_right hle 1)⟩, hread⟩
  | endReader ts =>
    refine ⟨⟨?_, ?_⟩, (readTs_endReader x ts).ge⟩
    · rw [Oracle.apply, pending_endReader, readTs_endReader]
      exact h.doneUpto
    · rw [Oracle.apply, pending_endReader, readTs_endReader]
      exact h.le
  | readTs | allocCommitTs | beginReader | lowWatermark => exact ⟨⟨h.doneUpto, h.le⟩, le_rfl⟩

theorem reports_append : reports (L ++ [a]) = reports L + if a.op.isReport then 1 else 0 := by
  rw [reports, reports, List.countP_append, List.countP_singleton]

/-- Whatever the calls are, the watermark does not move back. -/
theorem ceiling_of_run (hrun : Trace.Run (Atomic.sequential apply) o L x) (ho : Ceiling N o)
    (hlt : N + reports L < 2 ^ 64) : Ceiling (N + reports L) x ∧ o.readTs ≤ x.readTs := by
  revert hlt
  refine hrun.invariant (motive := fun L x => N + reports L < 2 ^ 64 →
    Ceiling (N + reports L) x ∧ o.readTs ≤ x.readTs) (fun _ => ⟨ho, le_rfl⟩) ?_
  rintro L x a x' - ih ⟨⟨q, op⟩, hstep⟩ hlt
  obtain ⟨rfl, rfl⟩ := Prod.mk.inj (Option.some.inj hstep)
  rw [reports_append, ← Nat.add_assoc] at hlt ⊢
  obtain ⟨hceiling, hle⟩ := ih (by omega)
  obtain ⟨hceiling', hle'⟩ := hceiling.apply hlt
  exact ⟨hceiling', hle.trans hle'⟩

theorem begun_append : begun (L ++ [a]) r =
    begun L r + if a.op = .beginReader ∧ a.ans = some r then 1 else 0 := by
  simp only [begun, List.countP_append, List.countP_singleton, decide_eq_true_eq]

theorem ended_append : ended (L ++ [a]) r = ended L r + if a.op = .endReader r then 1 else 0 := by
  simp only [ended, List.countP_append, List.countP_singleton, decide_eq_true_eq]

/-- The registry counts those who began and did not end, at timestamps up to the watermark. -/
structure Counted (L : List (Atomic.Atom Op (Option ℕ))) (x : Oracle) (count : ℕ → ℕ) : Prop where
  registers : x.Registers count
  le : ∀ r, 0 < count r → r ≤ x.readTs
  begun_le : ∀ r, begun L r ≤ count r + ended L r

theorem ceiling_recovered : Ceiling highest (recovered highest) := ⟨rfl, le_rfl⟩

namespace Counted

variable {count : ℕ → ℕ}

/-- A call that neither begins a reader nor ends one. -/
theorem other (h : Counted L x count) {x' : Oracle} (hbegin : a.op ≠ .beginReader)
    (hend : ∀ r, a.op ≠ .endReader r) (hreaders : x'.readers = x.readers)
    (hread : x.readTs ≤ x'.readTs) : Counted (L ++ [a]) x' count where
  registers := h.registers.congr_readers hreaders
  le r hr := (h.le r hr).trans hread
  begun_le r := by
    rw [begun_append, ended_append, if_neg fun h => hbegin h.1, if_neg (hend r)]
    exact h.begun_le r

theorem begin (h : Counted L x count) (q : ℕ) :
    Counted (L ++ [⟨q, .beginReader, some x.readTs⟩]) x.beginReader.2
      fun r => count r + if r = x.readTs then 1 else 0 where
  registers := h.registers.beginReader
  le r hr := by
    split_ifs at hr with heq
    · exact heq.le
    · exact h.le r hr
  begun_le r := by
    have hle := h.begun_le r
    rw [begun_append, ended_append, if_neg (show ¬Op.beginReader = .endReader r from nofun)]
    by_cases heq : r = x.readTs
    · subst heq
      rw [if_pos ⟨rfl, rfl⟩, if_pos rfl]
      omega
    · rw [if_neg fun h => heq (Option.some.inj h.2).symm, if_neg heq]
      omega

theorem finish (h : Counted L x count) (q ts : ℕ) :
    Counted (L ++ [⟨q, .endReader ts, none⟩]) (x.endReader ts)
      fun r => count r - if r = ts then 1 else 0 where
  registers := h.registers.endReader
  le r hr := by
    rw [readTs_endReader]
    exact h.le r (by omega)
  begun_le r := by
    have hle := h.begun_le r
    rw [begun_append, ended_append, if_neg (by rintro ⟨h, -⟩; cases h)]
    by_cases heq : r = ts
    · subst heq
      rw [if_pos rfl, if_pos rfl]
      omega
    · rw [if_neg heq, if_neg fun h => heq (Op.endReader.inj h).symm]
      omega

/-- The low watermark is at or below whoever began and did not end, now or later. -/
theorem lowWatermark_le (h : Counted L₁ x count) {x' : Oracle}
    (hrun : Trace.Run (Atomic.sequential apply) x L₂ x') (hx : Ceiling N x)
    (hlt : N + reports L₂ < 2 ^ 64) (hcount : ended (L₁ ++ L₂) r < begun (L₁ ++ L₂) r) :
    x.lowWatermark ≤ r := by
  by_cases hpos : 0 < count r
  · exact h.registers.lowWatermark_le hpos
  · -- it begins after, at a watermark that did not move back
    have hle := h.begun_le r
    rw [ended, begun, List.countP_append, List.countP_append] at hcount
    obtain ⟨a, ha, hop⟩ : ∃ a ∈ L₂, decide (a.op = .beginReader ∧ a.ans = some r) = true := by
      refine List.countP_pos_iff.1 ?_
      rw [begun, ended] at hle
      omega
    obtain ⟨hop, hans⟩ := of_decide_eq_true hop
    obtain ⟨M₁, M₂, rfl⟩ := List.append_of_mem ha
    obtain ⟨m, m', hrun₁, ⟨⟨q, op⟩, hstep⟩, -⟩ := hrun.cut
    obtain ⟨rfl, rfl⟩ := Prod.mk.inj (Option.some.inj hstep)
    obtain rfl : op = .beginReader := hop
    obtain rfl : m.readTs = r := Option.some.inj hans
    rw [reports, List.countP_append] at hlt
    refine (h.registers.lowWatermark_le_readTs h.le).trans (ceiling_of_run hrun₁ hx ?_).2
    rw [reports]
    omega

end Counted

/-- Whatever the calls are, the registry counts those who began and did not end. -/
theorem counted_of_run (hrun : Trace.Run (Atomic.sequential apply) (recovered highest) L x)
    (hlt : highest + reports L < 2 ^ 64) : ∃ count, Counted L x count := by
  revert hlt
  refine hrun.invariant (motive := fun L x => highest + reports L < 2 ^ 64 →
    ∃ count, Counted L x count) (fun _ => ?_) ?_
  · exact ⟨fun _ => 0, registers_recovered, fun _ h => absurd h (lt_irrefl 0), fun _ => le_rfl⟩
  rintro L x a x' hrun ih ⟨⟨q, op⟩, hstep⟩ hlt
  obtain ⟨rfl, rfl⟩ := Prod.mk.inj (Option.some.inj hstep)
  rw [reports_append, ← Nat.add_assoc] at hlt
  obtain ⟨count, hcount⟩ := ih (by omega)
  cases op with
  | beginReader => exact ⟨_, hcount.begin q⟩
  | endReader ts => exact ⟨_, hcount.finish q ts⟩
  | commitDone ts =>
    have hceiling := (ceiling_of_run hrun ceiling_recovered (by omega)).1
    exact ⟨count, hcount.other nofun nofun (readers_commitDone x ts) (hceiling.apply hlt).2⟩
  | readTs | allocCommitTs | lowWatermark => exact ⟨count, hcount.other nofun nofun rfl le_rfl⟩

/-- In every run, whatever the clients do, the low watermark is at or below every reader alive,
    whenever it was asked for: if more readers began at `r` than calls that end one started, no
    low watermark that was returned is above `r`. -/
theorem low_watermark_le (hrun : Machine.Run (recovered highest) tr s)
    (hlt : highest + tr.countP (Atomic.Event.starts Op.isReport) < 2 ^ 64)
    (hq : .started q .lowWatermark ∈ tr) (hret : .returned q (some w) ∈ tr) {ps : List ℕ}
    (hps : ps.Nodup)
    (hbegan : ∀ p ∈ ps, .started p .beginReader ∈ tr ∧ .returned p (some r) ∈ tr)
    (hended : tr.countP (Atomic.Event.starts (· = .endReader r)) < ps.length) : w ≤ r := by
  obtain ⟨L, t, -, hL⟩ := Machine.exists_sim hrun
  have hbegun : ps.length ≤ begun L r := hL.length_le hps hbegan
  have hend : ended L r < ps.length :=
    (hL.countP_le (· = .endReader r)).trans_lt hended
  have hreports : highest + reports L < 2 ^ 64 :=
    (Nat.add_le_add_left (hL.countP_le Op.isReport) _).trans_lt hlt
  obtain ⟨a, ha, rfl, hans⟩ := hL.returned q (some w) hret
  have hop : .lowWatermark = a.op := hL.names _ _ _ hq (hL.started a ha)
  obtain ⟨L₁, L₂, rfl⟩ := List.append_of_mem ha
  obtain ⟨m, hrun₁, hm, hrun₂⟩ := hL.cut
  rw [← hop] at hm hrun₂
  obtain rfl : w = m.lowWatermark := Option.some.inj (hans.symm.trans hm)
  rw [reports, List.countP_append, List.countP_cons] at hreports
  obtain ⟨count, hcount⟩ := counted_of_run hrun₁ (by rw [reports]; omega)
  obtain ⟨hceiling, -⟩ := ceiling_of_run hrun₁ ceiling_recovered (by rw [reports]; omega)
  refine hcount.lowWatermark_le hrun₂ hceiling (by rw [reports, reports]; omega) ?_
  -- the call itself neither begins a reader nor ends one
  have hskip : ended (L₁ ++ L₂) r = ended (L₁ ++ a :: L₂) r ∧
      begun (L₁ ++ L₂) r = begun (L₁ ++ a :: L₂) r := by
    simp [ended, begun, List.countP_append, ← hop]
  rw [hskip.1, hskip.2]
  exact hend.trans_le hbegun

/-- The low watermark waits for the reader to be registered. -/
theorem low_watermark_le_overlapping : ∃ w, .returned 5 (some w) ∈ overlappingTrace ∧ w ≤ 0 := by
  obtain ⟨s, hexec, -⟩ := exec_overlapping
  have hrun : Machine.Run (recovered 0) overlappingTrace s := Trace.run_of_exec hexec
  have hret : .returned 5 (some 0) ∈ overlappingTrace := by decide
  exact ⟨0, hret, low_watermark_le hrun (by decide) (by decide) hret (List.nodup_singleton 4)
    (by decide) (by decide)⟩

end TxnDb.Oracle
