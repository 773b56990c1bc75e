import TxnDb.Oracle.Effects

/-!
# Linearizability of the oracle

What concurrent calls of the oracle return is as if each were made at once, one after the other
(`Oracle.linearizable`): the calls in progress, with those that took effect, follow the oracle on
which they are made at once (`Oracle.Machine.Sim`).
-/

namespace TxnDb.Oracle

variable {s s' : Machine} {e : Atomic.Event Op (Option ℕ)} {tr : List (Atomic.Event Op (Option ℕ))}
  {p q : ℕ} {pc : Pc} {a : Access} {l : Mutex} {o x : Oracle}

namespace Machine

variable {holder : Mutex → Option ℕ} {y : Option Pc}

/-- What the call that holds a lock is to access under it. -/
def inside (s : Machine) (l : Mutex) : Option Access := ((s.holder l).bind s.call).bind Pc.access?

/-- The calls, and the oracle on which they are made at once: with those that took effect. -/
structure Sim (s : Machine) (t : Atomic.State Oracle Op (Option ℕ)) : Prop extends s.Locked where
  nextTs : s.oracle.nextTs = t.obj.nextTs
  readTs : s.oracle.readTs = t.obj.readTs
  agrees : ∀ l, Agrees s.oracle t.obj (s.inside l) l
  length : s.calls.length = t.calls.length
  stands : ∀ p pc, s.call p = some pc → ∃ c, t.call p = some c ∧ pc.Stands c

variable {t : Atomic.State Oracle Op (Option ℕ)}

/-- What is accessed under the locks, once the call `p` goes on. -/
theorem inside_set (hp : s.call p = some pc) :
    (Machine.mk o holder (s.calls.set p y)).inside l =
      if holder l = some p then y.bind Pc.access?
      else ((holder l).bind s.call).bind Pc.access? := by
  rw [inside]
  change ((holder l).bind _).bind _ = _
  cases hl : holder l with
  | none => rfl
  | some q =>
    rw [Option.bind_some, Option.bind_some, call_set hp]
    by_cases heq : q = p
    · rw [if_pos heq, if_pos (congrArg some heq)]
    · rw [if_neg heq, if_neg fun h => heq (Option.some.inj h)]

namespace Sim

/-- A call goes on, in both. -/
theorem set (hs : Sim s t) (hp : s.call p = some pc)
    (hlocked : (Machine.mk o holder (s.calls.set p y)).Locked) (hnext : o.nextTs = x.nextTs)
    (hread : o.readTs = x.readTs)
    (hagrees : ∀ l, Agrees o x ((Machine.mk o holder (s.calls.set p y)).inside l) l)
    {c : Option (Atomic.Call Op (Option ℕ))}
    (hstands : ∀ pc, y = some pc → ∃ c', c = some c' ∧ pc.Stands c') :
    Sim ⟨o, holder, s.calls.set p y⟩ ⟨x, t.calls.set p c⟩ where
  toLocked := hlocked
  nextTs := hnext
  readTs := hread
  agrees := hagrees
  length := by
    rw [List.length_set, List.length_set]
    exact hs.length
  stands q pc' hq := by
    obtain ⟨c', hc, -⟩ := hs.stands p pc hp
    rw [call_set hp] at hq
    rw [Atomic.State.call_set hc]
    split_ifs at hq ⊢
    · exact hstands pc' hq
    · exact hs.stands q pc' hq

/-- A call that starts holds no lock. -/
theorem start (hs : Sim s t) (op : Op) :
    Sim ⟨s.oracle, s.holder, s.calls ++ [some op.start]⟩
      ⟨t.obj, t.calls ++ [some (.waiting op)]⟩ where
  toLocked := hs.toLocked.start op
  nextTs := hs.nextTs
  readTs := hs.readTs
  agrees l := by
    have hinside : (Machine.mk s.oracle s.holder (s.calls ++ [some op.start])).inside l =
        s.inside l := by
      rw [inside, inside]
      cases hl : s.holder l with
      | none => rfl
      | some p =>
        obtain ⟨pc, hp, -⟩ := hs.held l p hl
        rw [Option.bind_some, Option.bind_some, call_append, if_neg (lt_of_call hp).ne]
    rw [hinside]
    exact hs.agrees l
  length := by rw [List.length_append, List.length_append, hs.length]; rfl
  stands p pc hp := by
    rw [call_append] at hp
    rw [Atomic.State.call_append, ← hs.length]
    split_ifs at hp ⊢
    · obtain rfl := Option.some.inj hp
      exact ⟨_, rfl, by cases op <;> rfl⟩
    · exact hs.stands p pc hp

/-- What a call accesses first, under a lock that nobody holds, is as it was left. -/
theorem agrees_start (hs : Sim s t) {next : Access} (hp : s.call p = some (.lock l next))
    (hfree : s.holder l = none) : Agrees s.oracle t.obj (some next) l := by
  have hagrees := hs.agrees l
  rw [inside, hfree] at hagrees
  obtain ⟨op, hop⟩ := hs.starts p l next hp
  cases op <;> cases hop <;> exact hagrees

/-- A step of a call is one of the calls made at once, or none. -/
theorem step (hs : Sim s t) (hstep : Step s e s') :
    ∃ t', Trace.Step (Atomic.State.step apply) t e t' ∧ Sim s' t' := by
  have hlocked := hs.toLocked.step hstep
  cases hstep with
  | started op => exact ⟨_, ⟨.start op, by rw [hs.length]; rfl⟩, hs.start op⟩
  | @locked p l next hp hfree =>
    obtain ⟨c, hc, rfl⟩ := hs.stands p _ hp
    refine ⟨_, Atomic.Effect.rest.step hc,
      hs.set hp hlocked hs.nextTs hs.readTs (fun l' => ?_) fun pc hpc => ?_⟩
    · rw [inside_set hp, Function.update_apply]
      split_ifs with heq hself hself
      · exact heq ▸ hs.agrees_start hp hfree
      · exact absurd rfl hself
      · cases (hs.holder_iff hp).1 hself
      · exact hs.agrees l'
    · obtain rfl := Option.some.inj hpc
      exact ⟨_, rfl, rfl⟩
  | @accessed p a hp =>
    obtain ⟨c, hc, rfl⟩ := hs.stands p _ hp
    have hinside : ∀ l, a.guard = some l → s.inside l = some a := fun l hl => by
      rw [inside, hs.holds p _ l hp hl, Option.bind_some, hp]
      rfl
    obtain ⟨x', c', heffect, hstands, hnext, hread, hin, hout⟩ :=
      a.spec hs.nextTs hs.readTs fun l hl => hinside l hl ▸ hs.agrees l
    refine ⟨_, heffect.step hc, hs.set hp hlocked hnext hread (fun l => ?_) fun pc hpc => ?_⟩
    · rw [inside_set hp]
      split_ifs with hself
      · exact hin l ((hs.holder_iff hp).1 hself)
      · obtain ⟨ho, hx⟩ := hout l fun hl => hself (hs.holds p _ l hp hl)
        exact (hs.agrees l).congr ho hx
    · obtain rfl := Option.some.inj hpc
      exact ⟨c', rfl, hstands⟩
  | @unlocked p l ans hp =>
    obtain ⟨c, hc, op, rfl⟩ := hs.stands p _ hp
    refine ⟨_, Atomic.Effect.rest.step hc,
      hs.set hp hlocked hs.nextTs hs.readTs (fun l' => ?_) fun pc hpc => ?_⟩
    · have hagrees := hs.agrees l'
      rw [inside_set hp, Function.update_apply]
      split_ifs with heq hself hself
      · cases hself
      · -- the guard is dropped with nothing left to do under it
        rw [heq, inside, hs.holds p _ l hp rfl, Option.bind_some, hp] at hagrees
        exact heq ▸ hagrees
      · exact absurd (Option.some.inj ((hs.holder_iff hp).1 hself)).symm heq
      · exact hagrees
    · obtain rfl := Option.some.inj hpc
      exact ⟨_, rfl, op, rfl⟩
  | @returned p ans hp =>
    obtain ⟨c, hc, op, rfl⟩ := hs.stands p _ hp
    refine ⟨_, ⟨.ret p, by rw [Atomic.State.step, hc]⟩,
      hs.set hp hlocked hs.nextTs hs.readTs (fun l => ?_) nofun⟩
    rw [inside_set hp]
    split_ifs with hself
    · cases (hs.holder_iff hp).1 hself
    · exact hs.agrees l

end Sim

/-- Nobody calls the oracle, and it is left alone. -/
theorem sim_new (o : Oracle) : Sim (new o) ⟨o, []⟩ where
  holds _ _ _ hp := nomatch hp
  held _ _ hl := nomatch hl
  starts _ _ _ hp := nomatch hp
  nextTs := rfl
  readTs := rfl
  agrees l := by cases l <;> rfl
  length := rfl
  stands _ _ hp := nomatch hp

end Machine

/-- Once every call has returned, the oracle is as they leave it. -/
theorem Machine.Sim.oracle_eq {t : Atomic.State Oracle Op (Option ℕ)} (hs : Sim s t)
    (hquiet : ∀ p, s.call p = none) : s.oracle = t.obj := by
  have hinside : ∀ l, s.inside l = none := fun l => by
    rw [inside]
    cases hl : s.holder l with
    | none => rfl
    | some p => rw [Option.bind_some, hquiet p, Option.bind_none]
  have hpending := hs.agrees .pending
  have hreaders := hs.agrees .readers
  rw [hinside] at hpending hreaders
  cases ho : s.oracle with
  | mk nextTs readTs pending readers =>
    cases hx : t.obj with
    | mk nextTs' readTs' pending' readers' =>
      have hnext := hs.nextTs
      have hread := hs.readTs
      rw [ho, hx] at hpending hreaders hnext hread
      exact (Oracle.mk.injEq ..).mpr ⟨hnext, hread, hpending, hreaders⟩

/-- A run is simulated by one in which the calls are made at once. -/
theorem Machine.exists_sim (hrun : Machine.Run o tr s) :
    ∃ L t, Machine.Sim s t ∧ Atomic.Linearizes apply o tr L t.obj :=
  Atomic.linearizes_of_simulates hrun (Machine.sim_new o)
    fun hR ⟨_, hstep⟩ => hR.step (Machine.step_inv hstep)

/-- In every run, what concurrent calls of the oracle return is as if each of them were made at
    once, one after the other, in an order in which a call that returns before another one
    starts comes first; and what they leave, once all have returned. -/
theorem linearizable (hrun : Machine.Run o tr s) :
    ∃ L x, Atomic.Linearizes apply o tr L x ∧ ((∀ p, s.call p = none) → s.oracle = x) := by
  obtain ⟨L, t, hs, hL⟩ := Machine.exists_sim hrun
  exact ⟨L, t.obj, hL, hs.oracle_eq⟩

/-- Two timestamps are reported in the opposite order, while a reader begins, between two reports
    that move the watermark, and the low watermark is asked for. -/
def overlapping : List Machine.Action :=
  [.start .allocCommitTs, .start .allocCommitTs, .go 1, .go 0, .go 0, .go 1,
    .start (.commitDone 2), .start (.commitDone 1), .go 2, .go 2, .go 2, .go 2,
    .start .beginReader, .start .lowWatermark, .go 4, .go 3, .go 3, .go 3, .go 4, .go 3, .go 3,
    .go 4, .go 4, .go 5, .go 5, .go 5, .go 5, .go 4, .go 3, .go 3, .start .readTs, .go 6, .go 6]

def overlappingTrace : List (Atomic.Event Op (Option ℕ)) :=
  [.started 0 .allocCommitTs, .started 1 .allocCommitTs, .ran, .ran, .returned 0 (some 2),
    .returned 1 (some 1), .started 2 (.commitDone 2), .started 3 (.commitDone 1), .ran, .ran, .ran,
    .returned 2 none, .started 4 .beginReader, .started 5 .lowWatermark, .ran, .ran, .ran, .ran,
    .ran, .ran, .ran, .ran, .ran, .ran, .ran, .ran, .returned 5 (some 0), .returned 4 (some 0),
    .ran, .returned 3 none, .started 6 .readTs, .ran, .returned 6 (some 2)]

theorem exec_overlapping : ∃ s, Trace.exec Machine.step (Machine.new .new) overlapping =
    some (overlappingTrace, s) ∧ s.oracle.readTs = 2 ∧ s.calls = List.replicate 7 none :=
  ⟨_, rfl, by decide⟩

theorem linearizable_overlapping : ∃ L x,
    Atomic.Linearizes apply .new overlappingTrace L x ∧ x.readTs = 2 := by
  obtain ⟨s, hexec, hread, hcalls⟩ := exec_overlapping
  obtain ⟨L, x, hL, hx⟩ := linearizable (Trace.run_of_exec hexec)
  refine ⟨L, x, hL, hx (fun p => ?_) ▸ hread⟩
  rw [Machine.call, hcalls, List.getD_eq_getElem?_getD, List.getElem?_replicate]
  split_ifs <;> rfl

end TxnDb.Oracle
