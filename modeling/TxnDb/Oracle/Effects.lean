import TxnDb.Oracle.Locks

/-!
# The effects of the oracle's calls

Where every call takes effect at once: a report when it publishes the watermark, or else when it
puts its timestamp ahead of it; a reader that begins when it loads the watermark; one that ends
when it is counted no more; the low watermark when the registry is found not to be empty, or else
when the watermark is loaded. In between, what is under a lock is as the call that holds it leaves
it (`Oracle.Agrees`); and every access is what it amounts to (`Oracle.Access.spec`).
-/

namespace TxnDb.Oracle

variable {s s' : Machine} {e : Atomic.Event Op (Option ℕ)} {tr : List (Atomic.Event Op (Option ℕ))}
  {p q : ℕ} {pc : Pc} {a : Access} {l : Mutex} {o x : Oracle}

/-! ## What the calls in progress have done -/

/-- What is under a lock is the same. -/
def Mutex.Same (o x : Oracle) : Mutex → Prop
  | .pending => o.pending = x.pending
  | .readers => o.readers = x.readers

/-- How the timestamps `q` being reported stand to those reported, `p`, by the access that the
    call holding their lock is to make: the report takes effect once it is published. -/
def Reporting (q p : Pending) : Option Access → Prop
  | some (.advance ts next) => ts = wrap (p.doneUpto + 1) ∧
    catchUp q.ahead.card q next = catchUp p.ahead.card ⟨ts, p.ahead⟩ (wrap (ts + 1))
  | some (.publish ts) => ts = wrap (p.doneUpto + 1) ∧
    q = catchUp p.ahead.card ⟨ts, p.ahead⟩ (wrap (ts + 1))
  | _ => q = p

/-- How the registry `m` stands to the readers alive, `r`: one that begins is alive once it has
    loaded the watermark, and one that ends is not once it is counted no more. -/
def Registering (m r : AList fun _ : ℕ => ℕ) : Option Access → Prop
  | some (.register ts) => r = m.insert ts ((m.lookup ts).getD 0 + 1)
  | some (.remove ts) => r = m.erase ts
  | some .loadLow => m = r ∧ m.keys.min? = none
  | _ => m = r

/-- How what is under a lock in `o` stands to what it is in `x`, where every call that took
    effect is done. -/
def Agrees (o x : Oracle) (i : Option Access) : Mutex → Prop
  | .pending => Reporting o.pending x.pending i
  | .readers => Registering o.readers x.readers i

theorem Agrees.congr {o' x' : Oracle} {i : Option Access} (h : Agrees o x i l)
    (ho : l.Same o o') (hx : l.Same x x') : Agrees o' x' i l := by
  cases l with
  | pending =>
    rw [Agrees, ← (ho : o.pending = o'.pending), ← (hx : x.pending = x'.pending)]
    exact h
  | readers =>
    rw [Agrees, ← (ho : o.readers = o'.readers), ← (hx : x.readers = x'.readers)]
    exact h

/-- What a call is, by the access that it is to make. -/
def Access.stands : Access → Atomic.Call Op (Option ℕ)
  | .loadReadTs => .waiting .readTs
  | .fetchAdd => .waiting .allocCommitTs
  | .loadBegin => .waiting .beginReader
  | .register ts => .done .beginReader (some ts)
  | .decrement ts => .waiting (.endReader ts)
  | .remove ts => .done (.endReader ts) none
  | .first | .loadLow => .waiting .lowWatermark
  | .compare ts | .advance ts _ | .publish ts => .waiting (.commitDone ts)

def Pc.Stands : Pc → Atomic.Call Op (Option ℕ) → Prop
  | .lock _ a, c | .access a, c => c = a.stands
  | .unlock _ ans, c | .ret ans, c => ∃ op, c = .done op ans

def Pc.access? : Pc → Option Access
  | .access a => some a
  | _ => none

/-- What an access amounts to, from an oracle `o` to which `x` stands as the oracle with every
    call that took effect. -/
def Access.Spec (a : Access) (o x o' : Oracle) (pc : Pc) : Prop :=
  ∃ x' c, Atomic.Effect apply x a.stands x' c ∧ pc.Stands c ∧ o'.nextTs = x'.nextTs ∧
    o'.readTs = x'.readTs ∧ (∀ l, a.guard = some l → Agrees o' x' pc.access? l) ∧
      ∀ l, a.guard ≠ some l → l.Same o o' ∧ l.Same x x'

theorem erase_insert {m : AList fun _ : ℕ => ℕ} {k v : ℕ} : (m.insert k v).erase k = m.erase k := by
  refine AList.ext ?_
  change List.kerase k (m.insert k v).entries = List.kerase k m.entries
  rw [AList.entries_insert]
  exact List.kerase_cons_eq rfl

/-- The loop goes on as it does in one go. -/
theorem catchUp_of_mem {q : Pending} {next : ℕ} (h : next ∈ q.ahead) :
    catchUp (q.ahead.erase next).card ⟨next, q.ahead.erase next⟩ (wrap (next + 1)) =
      catchUp q.ahead.card q next := by
  have hcard := Finset.card_erase_add_one h
  rw [← hcard, catchUp, if_pos h]

/-- The loop ends as it does in one go. -/
theorem catchUp_of_notMem {q : Pending} {next : ℕ} (h : next ∉ q.ahead) (fuel : ℕ) :
    catchUp fuel q next = q := by
  cases fuel with
  | zero => rfl
  | succ fuel => rw [catchUp, if_neg h]

namespace Access

section

variable {o' x' : Oracle} {c : Atomic.Call Op (Option ℕ)}

/-- An access under the lock of the readers. -/
theorem Spec.of_readers (hguard : a.guard = some .readers)
    (heffect : Atomic.Effect apply x a.stands x' c) (hstands : pc.Stands c)
    (hnext : o'.nextTs = x'.nextTs) (hread : o'.readTs = x'.readTs)
    (hreaders : Registering o'.readers x'.readers pc.access?)
    (ho : o.pending = o'.pending) (hx : x.pending = x'.pending) : a.Spec o x o' pc := by
  refine ⟨x', c, heffect, hstands, hnext, hread, fun l hl => ?_, fun l hl => ?_⟩
  · obtain rfl : .readers = l := Option.some.inj (hguard.symm.trans hl)
    exact hreaders
  · cases l with
    | pending => exact ⟨ho, hx⟩
    | readers => exact absurd hguard hl

/-- An access under the lock of the timestamps reported. -/
theorem Spec.of_pending (hguard : a.guard = some .pending)
    (heffect : Atomic.Effect apply x a.stands x' c) (hstands : pc.Stands c)
    (hnext : o'.nextTs = x'.nextTs) (hread : o'.readTs = x'.readTs)
    (hpending : Reporting o'.pending x'.pending pc.access?)
    (ho : o.readers = o'.readers) (hx : x.readers = x'.readers) : a.Spec o x o' pc := by
  refine ⟨x', c, heffect, hstands, hnext, hread, fun l hl => ?_, fun l hl => ?_⟩
  · obtain rfl : .pending = l := Option.some.inj (hguard.symm.trans hl)
    exact hpending
  · cases l with
    | pending => exact absurd hguard hl
    | readers => exact ⟨ho, hx⟩

end

/-- Every access that reads the registry, or changes it, does what its call does. -/
theorem spec_readers (hnext : o.nextTs = x.nextTs) (hread : o.readTs = x.readTs)
    (hguard : a.guard = some .readers) (hreaders : Registering o.readers x.readers (some a)) :
    a.Spec o x (a.exec o).1 (a.exec o).2 := by
  obtain ⟨nextTs, readTs, pending, readers⟩ := o
  obtain ⟨nextTs', readTs', pending', readers'⟩ := x
  obtain rfl : nextTs = nextTs' := hnext
  obtain rfl : readTs = readTs' := hread
  cases a with
  | loadBegin =>
    obtain rfl : readers = readers' := hreaders
    exact .of_readers rfl .act rfl rfl rfl rfl rfl rfl
  | register ts =>
    obtain rfl : readers' = readers.insert ts _ := hreaders
    exact .of_readers rfl .rest ⟨_, rfl⟩ rfl rfl rfl rfl rfl
  | decrement ts =>
    obtain rfl : readers = readers' := hreaders
    have hend : ∀ x, Atomic.Effect apply x (Access.decrement ts).stands (x.endReader ts)
      (.done (.endReader ts) none) := fun x => .act
    cases hlookup : readers.lookup ts with
    | none =>
      simp only [exec, hlookup]
      refine .of_readers rfl (hend _) ⟨_, rfl⟩ ?_ ?_ ?_ rfl ?_ <;> simp only [endReader, hlookup]
      rfl
    | some count =>
      by_cases hzero : count - 1 = 0
      · -- it is counted no more; its entry is still there
        simp only [exec, hlookup, if_pos hzero]
        refine .of_readers rfl (hend _) rfl ?_ ?_ ?_ rfl ?_ <;>
          simp only [endReader, hlookup, if_pos hzero]
        exact erase_insert.symm
      · simp only [exec, hlookup, if_neg hzero]
        refine .of_readers rfl (hend _) ⟨_, rfl⟩ ?_ ?_ ?_ rfl ?_ <;>
          simp only [endReader, hlookup, if_neg hzero]
        rfl
  | remove ts =>
    obtain rfl : readers' = readers.erase ts := hreaders
    exact .of_readers rfl .rest ⟨_, rfl⟩ rfl rfl rfl rfl rfl
  | first =>
    obtain rfl : readers = readers' := hreaders
    have hlow : ∀ x, Atomic.Effect apply x Access.first.stands x
      (.done .lowWatermark (some x.lowWatermark)) := fun x => .act
    cases hmin : readers.keys.min? with
    | none =>
      simp only [exec, hmin]
      exact .of_readers rfl .rest rfl rfl rfl ⟨rfl, hmin⟩ rfl rfl
    | some oldest =>
      simp only [exec, hmin]
      refine .of_readers rfl (hlow _) ?_ rfl rfl rfl rfl rfl
      exact ⟨_, by rw [lowWatermark, hmin]⟩
  | loadLow =>
    obtain ⟨rfl, hmin⟩ : readers = readers' ∧ readers.keys.min? = none := hreaders
    have hlow : ∀ x, Atomic.Effect apply x Access.loadLow.stands x
      (.done .lowWatermark (some x.lowWatermark)) := fun x => .act
    refine .of_readers rfl (hlow _) ?_ rfl rfl rfl rfl rfl
    exact ⟨_, by rw [lowWatermark, hmin]⟩
  | loadReadTs | fetchAdd | compare | advance | publish => cases hguard

/-- Every access to the timestamps reported does what its call does. -/
theorem spec_pending (hnext : o.nextTs = x.nextTs) (hread : o.readTs = x.readTs)
    (hguard : a.guard = some .pending) (hpending : Reporting o.pending x.pending (some a)) :
    a.Spec o x (a.exec o).1 (a.exec o).2 := by
  obtain ⟨nextTs, readTs, pending, readers⟩ := o
  obtain ⟨nextTs', readTs', pending', readers'⟩ := x
  obtain rfl : nextTs = nextTs' := hnext
  obtain rfl : readTs = readTs' := hread
  cases a with
  | compare ts =>
    obtain rfl : pending = pending' := hpending
    by_cases heq : ts = wrap (pending.doneUpto + 1)
    · simp only [exec, if_pos heq]
      exact .of_pending rfl .rest rfl rfl rfl ⟨heq, rfl⟩ rfl rfl
    · -- it takes effect, out of order
      simp only [exec, if_neg heq]
      have hdone : ∀ x, Atomic.Effect apply x (Access.compare ts).stands (x.commitDone ts)
        (.done (.commitDone ts) none) := fun x => .act
      refine .of_pending rfl (hdone _) ⟨_, rfl⟩ ?_ ?_ ?_ rfl ?_ <;>
        simp only [commitDone, if_neg heq]
      rfl
  | advance ts next =>
    obtain ⟨heq, hloop⟩ := hpending
    by_cases hmem : next ∈ pending.ahead
    · simp only [exec, if_pos hmem]
      exact .of_pending rfl .rest rfl rfl rfl ⟨heq, (catchUp_of_mem hmem).trans hloop⟩ rfl rfl
    · simp only [exec, if_neg hmem]
      exact .of_pending rfl .rest rfl rfl rfl
        ⟨heq, (catchUp_of_notMem hmem _).symm.trans hloop⟩ rfl rfl
  | publish ts =>
    obtain ⟨heq, rfl⟩ := hpending
    have hdone : ∀ x, Atomic.Effect apply x (Access.publish ts).stands (x.commitDone ts)
      (.done (.commitDone ts) none) := fun x => .act
    refine .of_pending rfl (hdone _) ⟨_, rfl⟩ ?_ ?_ ?_ rfl ?_ <;>
      simp only [exec, commitDone, if_pos heq]
    rfl
  | loadReadTs | fetchAdd | loadBegin | register | decrement | remove | first | loadLow =>
    cases hguard

/-- Every access does what its call does, at once or in part. -/
theorem spec (hnext : o.nextTs = x.nextTs) (hread : o.readTs = x.readTs)
    (hagree : ∀ l, a.guard = some l → Agrees o x (some a) l) :
    a.Spec o x (a.exec o).1 (a.exec o).2 := by
  cases hguard : a.guard with
  | some l =>
    cases l with
    | pending => exact spec_pending hnext hread hguard (hagree _ hguard)
    | readers => exact spec_readers hnext hread hguard (hagree _ hguard)
  | none =>
    cases a with
    | loadReadTs =>
      exact ⟨x, _, .act, ⟨.readTs, by rw [hread]; rfl⟩, hnext, hread, nofun,
        fun l _ => by cases l <;> exact ⟨rfl, rfl⟩⟩
    | fetchAdd =>
      exact ⟨_, _, .act, ⟨.allocCommitTs, by rw [hnext]; rfl⟩, congrArg (wrap <| · + 1) hnext,
        hread, nofun, fun l _ => by cases l <;> exact ⟨rfl, rfl⟩⟩
    | _ => cases hguard

end Access

end TxnDb.Oracle
