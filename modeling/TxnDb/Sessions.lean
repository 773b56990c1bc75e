import TxnDb.Sessions.Named

/-!
# What the handles do

What is in the sessions of the handles (`Sessions`):

* a session replays from what the history shows at the timestamp of its handle,
  and will do so whatever is committed later, as later commits are above;
* a transaction buffers what its session last wrote, and a serializable one has
  recorded the keys its session read from the store;
* an attempt writes what the session of its handle wrote, and a serializable one
  validates the other keys the session read.
-/

namespace TxnDb

open Mvcc

variable {tr : List Event} {s s' : Sys} {h r : ℕ} {e : Event} {a : Attempt} {k : Key} {kind : Kind}

/-- The handle `h` is a serializable transaction. -/
def Serializable (tr : List Event) (h : ℕ) : Prop := ∃ r, .began h .serializable r ∈ tr

/-- The transaction of `h` buffers what its session last wrote, and records, if it
    is serializable, the keys its session read from the store. -/
structure Buffers (tr : List Event) (h : ℕ) (tx : Transaction) : Prop where
  writes : ∀ k, buffered (session tr h) k = tx.writes.lookup k
  isSome : tx.reads.isSome ↔ Serializable tr h
  reads : ∀ R, tx.reads = some R → ∀ k, k ∈ R ↔ ReadsFresh k (session tr h)

theorem Buffers.recorded {tx : Transaction} (hb : Buffers tr h tx) :
    Recorded (session tr h) tx :=
  ⟨hb.writes, hb.reads⟩

/-- The attempt of `h` writes what its session wrote, and validates, if it is
    serializable, the other keys its session read. -/
structure Program (tr : List Event) (h : ℕ) (a : Attempt) : Prop where
  ne_nil : a.writes ≠ []
  writes : ∀ k, buffered (session tr h) k = a.writes.dlookup k
  reads : ∀ k, k ∈ a.reads ↔ Serializable tr h ∧ ReadsFresh k (session tr h) ∧ ¬a.Writes k

/-- The state of the handle `h` follows from its session. -/
def Follows (tr : List Event) (h : ℕ) : Handle → Prop
  | .reading _ => ∀ k, buffered (session tr h) k = none
  | .active tx => Buffers tr h tx
  | .committing a _ => Program tr h a
  | .finished _ _ | .closed => True

theorem Program.congr {tr' : List Event} (hp : Program tr h a)
    (hsession : session tr' h = session tr h) (hser : Serializable tr' h ↔ Serializable tr h) :
    Program tr' h a :=
  ⟨hp.ne_nil, hsession ▸ hp.writes, fun k => by rw [hp.reads, hsession, hser]⟩

theorem Follows.congr {tr' : List Event} {x : Handle} (hf : Follows tr h x)
    (hsession : session tr' h = session tr h) (hser : Serializable tr' h ↔ Serializable tr h) :
    Follows tr' h x := by
  cases x with
  | reading r => intro k; rw [hsession]; exact hf k
  | active tx =>
    exact ⟨fun k => by rw [hsession, hf.writes], by rw [hf.isSome, hser],
      fun R hR k => by rw [hsession, hf.reads R hR]⟩
  | committing a stage => exact Program.congr hf hsession hser
  | finished | closed => trivial

/-- What the sessions are, for the trace so far and the state it leads to. -/
structure Sessions (tr : List Event) (s : Sys) : Prop where
  /-- A session replays from what is seen at the timestamp of its handle. -/
  replays : ∀ {h kind r}, .began h kind r ∈ cycle tr →
    r ≤ s.inner.readTs ∧ Replays (snapshot (history tr) r) (session tr h)
  /-- A read from the store gives what is seen at the timestamp of its handle. -/
  reads : ∀ {h r k v}, .got h r k v false ∈ cycle tr →
    r ≤ s.inner.readTs ∧ snapshot (history tr) r k = v
  follows : ∀ h, Follows tr h (s.handle h)
  programs : ∀ {a}, .committed a ∈ tr → Program tr a.id a
  /-- A transaction with nothing to write has written nothing. -/
  writesNothing : ∀ {h r}, .readOnly h r ∈ tr → ∀ k, buffered (session tr h) k = none
  /-- The keys read before being written are those read from the store. -/
  fresh : ∀ {h k}, ReadsFresh k (session tr h) ↔ ∃ r v, .got h r k v false ∈ tr

/-- Later commits are not seen at the timestamps read at so far. -/
theorem Inv.snapshot_step (hinv : Inv tr s) (hstep : Step s e s') (hopen : ∀ L, e ≠ .opened L)
    (hr : r ≤ s.inner.readTs) :
    snapshot (history (tr ++ [e])) r = snapshot (history tr) r := by
  rw [history_append_singleton]
  cases hstep with
  | committed hh =>
    funext k
    refine snapshot_append_of_lt fun b hb _ => ?_
    rw [List.mem_singleton.1 hb]
    exact hr.trans_lt (hinv.readTs_lt hh).2
  | opened => exact absurd rfl (hopen _)
  | _ => rfl

/-- Only snapshots and transactions not in a commit have a session that goes on. -/
theorem Step.op_eq_none (hstep : Step s e s') (hreading : ∀ r, s.handle h ≠ .reading r)
    (hactive : ∀ tx, s.handle h ≠ .active tx) : e.op h = none := by
  cases hstep with
  | @gotSnapshot h' _ _ hh =>
    exact if_neg fun (heq : h' = h) => hreading _ (heq ▸ hh)
  | @gotStore h' _ _ hh | @gotOwn h' _ _ _ hh | @wrote h' _ _ _ hh =>
    exact if_neg fun (heq : h' = h) => hactive _ (heq ▸ hh)
  | _ => rfl

/-- The session of a handle that has not begun is empty. -/
theorem Named.session_eq_nil (hn : Named tr s) (hle : s.handles.length ≤ h) :
    session tr h = [] := by
  refine List.filterMap_eq_nil_iff.2 fun e he => ?_
  cases e with
  | got h' =>
    obtain ⟨kind, hb⟩ := hn.got he
    exact if_neg ((hn.lt hb).trans_le hle).ne
  | wrote h' =>
    obtain ⟨kind, r, hb⟩ := hn.wrote he
    exact if_neg ((hn.lt hb).trans_le hle).ne
  | _ => rfl

theorem serializable_append (he : ∀ kind r, e ≠ .began h kind r) :
    Serializable (tr ++ [e]) h ↔ Serializable tr h := by
  simp only [Serializable, mem_append_singleton_of_ne (he _ _).symm]

/-- A handle that began keeps its kind. -/
theorem Step.serializable_append (hstep : Step s e s') (hlt : h < s.handles.length) :
    Serializable (tr ++ [e]) h ↔ Serializable tr h := by
  refine TxnDb.serializable_append fun kind r heq => ?_
  subst heq
  cases hstep with
  | began => exact lt_irrefl _ hlt

/-- An operation replays where its session left, at the timestamp of its handle. -/
theorem Step.replays_op (hstep : Step s e s') (hinv : Inv tr s) (hf : Follows tr h (s.handle h))
    {op : Op Key Value} (hop : e.op h = some op) :
    ∃ r, (s.handle h).readTs = some r ∧ (Replays (snapshot (history tr) r) (session tr h) →
      Replays (snapshot (history tr) r) (session tr h ++ [op])) := by
  cases hstep with
  | @gotSnapshot h' r k hh =>
    obtain ⟨rfl, ho⟩ := Option.ite_none_right_eq_some.1 hop
    obtain rfl := Option.some.inj ho
    rw [hh] at hf ⊢
    refine ⟨r, rfl, fun hrep => replays_append_get.2 ⟨hrep, ?_⟩⟩
    rw [execOps_apply, hf k, hinv.get_eq (Sys.sees_of_readTs (congrArg Handle.readTs hh))]
    rfl
  | @gotStore h' tx k hh hk =>
    obtain ⟨rfl, ho⟩ := Option.ite_none_right_eq_some.1 hop
    obtain rfl := Option.some.inj ho
    rw [hh] at hf ⊢
    refine ⟨tx.readTs, rfl, fun hrep => replays_append_get.2 ⟨hrep, ?_⟩⟩
    rw [execOps_apply, hf.writes, hk, hinv.get_eq (Sys.sees_of_readTs (congrArg Handle.readTs hh))]
    rfl
  | @gotOwn h' tx k v hh hk =>
    obtain ⟨rfl, ho⟩ := Option.ite_none_right_eq_some.1 hop
    obtain rfl := Option.some.inj ho
    rw [hh] at hf ⊢
    refine ⟨tx.readTs, rfl, fun hrep => replays_append_get.2 ⟨hrep, ?_⟩⟩
    rw [execOps_apply, hf.writes, hk]
    rfl
  | @wrote h' tx k v hh =>
    obtain ⟨rfl, ho⟩ := Option.ite_none_right_eq_some.1 hop
    obtain rfl := Option.some.inj ho
    rw [hh]
    exact ⟨tx.readTs, rfl, replays_append_write.2⟩
  | _ => cases hop

namespace Sessions

theorem buffers (hsess : Sessions tr s) {tx : Transaction} (hh : s.handle h = .active tx) :
    Buffers tr h tx := by
  have hf := hsess.follows h
  rwa [hh] at hf

theorem program (hsess : Sessions tr s) {stage : Stage} (hh : s.handle h = .committing a stage) :
    Program tr h a := by
  have hf := hsess.follows h
  rwa [hh] at hf

/-- A handle that a step does not change follows from its session. -/
theorem follows_of_eq (hsess : Sessions tr s) (hstep : Step s e s')
    (hsame : s'.handle h = s.handle h) (hop : e.op h = none) :
    Follows (tr ++ [e]) h (s'.handle h) := by
  rw [hsame]
  by_cases hclosed : s.handle h = .closed
  · rw [hclosed]
    trivial
  · exact (hsess.follows h).congr (session_append_of_none hop)
      (hstep.serializable_append (Sys.lt_of_handle hclosed))

theorem follows_set (hsess : Sessions tr s) {x : Handle} {inner : Inner}
    (hstep : Step s e (s.set h x inner)) (hh : s.handle h ≠ .closed)
    (hop : ∀ h', h' ≠ h → e.op h' = none) (hx : Follows (tr ++ [e]) h x) (h' : ℕ) :
    Follows (tr ++ [e]) h' ((s.set h x inner).handle h') := by
  by_cases heq : h' = h
  · rw [heq, Sys.handle_set_self hh]
    exact hx
  · exact hsess.follows_of_eq hstep (Sys.handle_set_of_ne heq) (hop h' heq)

/-- A handle that begins has done nothing. -/
theorem follows_began (hn : Named tr s) (kind : Kind) :
    Follows (tr ++ [.began s.handles.length kind s.inner.readTs]) s.handles.length
      (.begin s.inner.readTs kind) := by
  have hnil :
      session (tr ++ [.began s.handles.length kind s.inner.readTs]) s.handles.length = [] :=
    (session_append_of_none rfl).trans (hn.session_eq_nil le_rfl)
  have hser : Serializable (tr ++ [.began s.handles.length kind s.inner.readTs])
      s.handles.length ↔ kind = .serializable := by
    constructor
    · rintro ⟨r, hb⟩
      rcases List.mem_append.1 hb with hb | hb
      · exact absurd (hn.lt hb) (lt_irrefl _)
      · cases List.mem_singleton.1 hb
        rfl
    · rintro rfl
      exact ⟨_, List.mem_append_right _ (List.mem_singleton_self _)⟩
  cases kind with
  | snapshot => intro k; rw [hnil]; rfl
  | transaction =>
    exact ⟨fun k => by rw [hnil]; rfl, by rw [hser]; simp [Transaction.new], nofun⟩
  | serializable =>
    refine ⟨fun k => by rw [hnil]; rfl, by rw [hser]; simp [Transaction.new], fun R hR k => ?_⟩
    obtain rfl := Option.some.inj hR
    rw [hnil]
    exact iff_of_false (Finset.notMem_empty k) id

/-- What a commit is called with is what its transaction has done. -/
theorem program_of_buffers {tx : Transaction} (hf : Buffers tr h tx)
    (hw : a.writes.Perm tx.writes.entries) (hne : a.writes ≠ [])
    (hreads : a.reads.toFinset = tx.commitReads) : Program tr h a := by
  have hlookup : ∀ k, a.writes.dlookup k = tx.writes.lookup k := fun k =>
    List.perm_dlookup k ((List.perm_nodupKeys hw).2 tx.writes.nodupKeys) hw
  refine ⟨hne, fun k => by rw [hf.writes, hlookup], fun k => ?_⟩
  rw [← List.mem_toFinset, hreads, hf.recorded.mem_commitReads, hf.isSome, Txn.not_writes_iff,
    hlookup, hf.writes]

/-- The sessions of the handles say what becomes of them. -/
theorem follows_step (hsess : Sessions tr s) (hn : Named tr s) (hstep : Step s e s') (h' : ℕ) :
    Follows (tr ++ [e]) h' (s'.handle h') := by
  have hany := hstep
  cases hstep with
  | began kind =>
    by_cases heq : h' = s.handles.length
    · subst heq
      rw [Sys.handle_add, if_pos rfl]
      exact follows_began hn kind
    · refine hsess.follows_of_eq (.began kind) ?_ rfl
      rw [Sys.handle_add, if_neg heq]
  | @gotSnapshot h r k hh =>
    by_cases heq : h' = h
    · subst heq
      have hf := hsess.follows h'
      rw [hh] at hf ⊢
      exact fun k' => (buffered_got k').trans (hf k')
    · exact hsess.follows_of_eq (.gotSnapshot hh) rfl (if_neg (Ne.symm heq))
  | @gotStore h tx k hh hk =>
    have hf := hsess.buffers hh
    have hser : Serializable (tr ++ [_]) h ↔ Serializable tr h :=
      (Step.gotStore hh hk).serializable_append (Sys.lt_of_handle (Sys.ne_closed hh rfl))
    have hrec := hf.recorded.getStore (s.inner.store.get k tx.readTs) hk
    rw [← session_append_got] at hrec
    refine hsess.follows_set (.gotStore hh hk) (Sys.ne_closed hh rfl)
      (fun h' hne => if_neg hne.symm) ⟨hrec.writes, ?_, hrec.reads⟩ h'
    rw [hser, ← hf.isSome, Option.isSome_map]
  | @gotOwn h tx k v hh hk =>
    have hf := hsess.buffers hh
    have hser : Serializable (tr ++ [_]) h ↔ Serializable tr h :=
      (Step.gotOwn hh hk).serializable_append (Sys.lt_of_handle (Sys.ne_closed hh rfl))
    have hrec := hf.recorded.getOwn v hk
    rw [← session_append_got] at hrec
    refine hsess.follows_set (.gotOwn hh hk) (Sys.ne_closed hh rfl)
      (fun h' hne => if_neg hne.symm) ⟨hrec.writes, ?_, hrec.reads⟩ h'
    rw [hser, hf.isSome]
  | @wrote h tx k v hh =>
    have hf := hsess.buffers hh
    have hser : Serializable (tr ++ [.wrote h k v]) h ↔ Serializable tr h :=
      (Step.wrote hh).serializable_append (Sys.lt_of_handle (Sys.ne_closed hh rfl))
    have hrec := hf.recorded.write k v
    rw [← session_append_wrote] at hrec
    refine hsess.follows_set (.wrote hh) (Sys.ne_closed hh rfl)
      (fun h' hne => if_neg hne.symm) ⟨hrec.writes, ?_, hrec.reads⟩ h'
    rw [hser, hf.isSome]
  | @allocated h tx a hh hid hr hc hw hne hreads =>
    have hp := program_of_buffers (hsess.buffers hh) hw hne hreads
    exact hsess.follows_set hany (Sys.ne_closed hh rfl) (fun _ _ => rfl)
      (hp.congr (session_append_of_none rfl)
        (hany.serializable_append (Sys.lt_of_handle (Sys.ne_closed hh rfl)))) h'
  | committed hh | conflicted hh | appending hh | appended hh | appendFailed hh =>
    exact hsess.follows_set hany (Sys.ne_closed hh rfl) (fun _ _ => rfl)
      ((hsess.program hh).congr (session_append_of_none rfl)
        (hany.serializable_append (Sys.lt_of_handle (Sys.ne_closed hh rfl)))) h'
  | readOnly hh | reported hh | returned hh | droppedSnapshot hh | droppedTransaction hh =>
    exact hsess.follows_set hany (Sys.ne_closed hh rfl) (fun _ _ => rfl) trivial h'
  | swept => exact hsess.follows_of_eq .swept rfl rfl
  | pruned hg hlt => exact hsess.follows_of_eq (.pruned hg hlt) rfl rfl
  | opened => rw [Sys.handle_map_closed]; trivial

/-- A read is of a key not written before iff it is from the store. -/
theorem fresh_append_got {h' r' : ℕ} {k' : Key} {v' : Option Value} {own : Bool}
    (hfresh : ReadsFresh k (session tr h) ↔ ∃ r v, .got h r k v false ∈ tr)
    (hown : buffered (session tr h') k' = none ↔ own = false) :
    ReadsFresh k (session (tr ++ [.got h' r' k' v' own]) h) ↔
      ∃ r v, .got h r k v false ∈ tr ++ [.got h' r' k' v' own] := by
  simp only [List.mem_append, List.mem_singleton, exists_or, ← hfresh]
  by_cases heq : h' = h
  · subst heq
    rw [session_append_got, readsFresh_append_get]
    refine or_congr_right ⟨?_, ?_⟩
    · rintro ⟨rfl, hnone⟩
      exact ⟨r', v', by rw [hown.1 hnone]⟩
    · rintro ⟨r, v, he⟩
      cases he
      exact ⟨rfl, hown.2 rfl⟩
  · rw [session_append_of_none (show Event.op h (.got h' r' k' v' own) = none from if_neg heq)]
    refine (or_iff_left ?_).symm
    rintro ⟨r, v, he⟩
    cases he
    exact heq rfl

/-- The keys read before being written are those read from the store. -/
theorem fresh_step (hsess : Sessions tr s) (hstep : Step s e s') :
    ReadsFresh k (session (tr ++ [e]) h) ↔ ∃ r v, .got h r k v false ∈ tr ++ [e] := by
  cases hstep with
  | @gotSnapshot h' _ k' hh =>
    refine fresh_append_got hsess.fresh (iff_of_true ?_ rfl)
    have hf := hsess.follows h'
    rw [hh] at hf
    exact hf k'
  | gotStore hh hk =>
    exact fresh_append_got hsess.fresh (iff_of_true (by rw [(hsess.buffers hh).writes, hk]) rfl)
  | gotOwn hh hk =>
    exact fresh_append_got hsess.fresh
      (iff_of_false (by rw [(hsess.buffers hh).writes, hk]; exact nofun) nofun)
  | @wrote h' _ k' v hh =>
    simp only [List.mem_append, List.mem_singleton, reduceCtorEq, or_false, ← hsess.fresh]
    rw [session_append_singleton, Event.op]
    split_ifs
    · exact readsFresh_append_write
    · rw [Option.toList_none, List.append_nil]
  | _ =>
    rw [session_append_of_none rfl, hsess.fresh]
    simp

/-- A session replays from what is seen at the timestamp of its handle, whatever
    is committed. -/
theorem replays_step (hsess : Sessions tr s) (hn : Named tr s) (hinv : Inv tr s)
    (hstep : Step s e s') (hread : s.inner.readTs ≤ s'.inner.readTs) (hopen : ∀ L, e ≠ .opened L)
    (hb : .began h kind r ∈ cycle tr ++ [e]) :
    r ≤ s'.inner.readTs ∧ Replays (snapshot (history (tr ++ [e])) r) (session (tr ++ [e]) h) := by
  rcases List.mem_append.1 hb with hb | hb
  · obtain ⟨hr, hrep⟩ := hsess.replays hb
    rw [hinv.snapshot_step hstep hopen hr, session_append_singleton]
    refine ⟨hr.trans hread, ?_⟩
    cases hop : e.op h with
    | none => rwa [Option.toList_none, List.append_nil]
    | some op =>
      obtain ⟨r', hr', hop⟩ := hstep.replays_op hinv (hsess.follows h) hop
      obtain ⟨kind', hb'⟩ := hn.began hr'
      obtain ⟨-, rfl⟩ := hn.unique (mem_of_mem_cycle hb) (mem_of_mem_cycle hb')
      exact hop hrep
  · obtain rfl := List.mem_singleton.1 hb
    cases hstep with
    | began =>
      rw [session_append_of_none rfl, hn.session_eq_nil le_rfl]
      exact ⟨le_rfl, trivial⟩

/-- A read from the store gives what is seen at the timestamp of its handle, and
    what will be, whatever is committed. -/
theorem reads_step (hsess : Sessions tr s) (hinv : Inv tr s) (hstep : Step s e s')
    (hread : s.inner.readTs ≤ s'.inner.readTs) (hopen : ∀ L, e ≠ .opened L) {v : Option Value}
    (hg : .got h r k v false ∈ cycle tr ++ [e]) :
    r ≤ s'.inner.readTs ∧ snapshot (history (tr ++ [e])) r k = v := by
  have hseen : r ≤ s.inner.readTs ∧ snapshot (history tr) r k = v := by
    rcases List.mem_append.1 hg with hg | hg
    · exact hsess.reads hg
    · obtain rfl := List.mem_singleton.1 hg
      cases hstep with
      | gotSnapshot hh | gotStore hh =>
        have hr := congrArg Handle.readTs hh
        exact ⟨hinv.le hr, (hinv.get_eq (Sys.sees_of_readTs hr) k).symm⟩
  rw [hinv.snapshot_step hstep hopen hseen.1]
  exact ⟨hseen.1.trans hread, hseen.2⟩

/-- The attempts committed do what the sessions of their handles did. -/
theorem programs_step (hsess : Sessions tr s) (hn : Named tr s) (hinv : Inv tr s)
    (hstep : Step s e s') (hc : .committed a ∈ tr ++ [e]) : Program (tr ++ [e]) a.id a := by
  rcases List.mem_append.1 hc with hc | hc
  · obtain ⟨-, hlt, hp⟩ := hn.committed hc
    refine (hsess.programs hc).congr (session_append_of_none (hstep.op_eq_none ?_ ?_))
      (hstep.serializable_append hlt)
    · intro r hh
      rw [hh] at hp
      exact hp
    · intro tx hh
      rw [hh] at hp
      exact hp
  · obtain rfl := List.mem_singleton.1 hc
    have hany := hstep
    cases hstep with
    | committed hh =>
      rw [(hinv.attempts hh).id]
      exact (hsess.program hh).congr (session_append_of_none rfl)
        (hany.serializable_append (Sys.lt_of_handle (Sys.ne_closed hh rfl)))

/-- A transaction with nothing to write has written nothing. -/
theorem writesNothing_step (hsess : Sessions tr s) (hn : Named tr s) (hstep : Step s e s')
    (hro : .readOnly h r ∈ tr ++ [e]) (k : Key) : buffered (session (tr ++ [e]) h) k = none := by
  rcases List.mem_append.1 hro with hold | hnew
  · obtain ⟨-, -, hd⟩ := hn.readOnly hold
    rw [session_append_of_none (hstep.op_eq_none ?_ ?_)]
    · exact hsess.writesNothing hold k
    · intro r hh
      rw [hh] at hd
      exact hd
    · intro tx hh
      rw [hh] at hd
      exact hd
  · obtain rfl := List.mem_singleton.1 hnew
    cases hstep with
    | readOnly hh hw =>
      rw [session_append_of_none rfl, (hsess.buffers hh).writes, AList.lookup, hw]
      rfl

/-- Every step preserves the sessions. -/
theorem step (hsess : Sessions tr s) (hn : Named tr s) (hinv : Inv tr s) (hstep : Step s e s')
    (hlt : allocations (tr ++ [e]) < 2 ^ 64) : Sessions (tr ++ [e]) s' := by
  have hfollows := hsess.follows_step hn hstep
  have hprograms := fun {a} => hsess.programs_step (a := a) hn hinv hstep
  have hnothing := fun {h r} => hsess.writesNothing_step (h := h) (r := r) hn hstep
  have hfresh := fun {h k} => hsess.fresh_step (h := h) (k := k) hstep
  by_cases hopen : ∃ L, e = .opened L
  · obtain ⟨L, rfl⟩ := hopen
    have hnil : ∀ {e}, e ∉ cycle (tr ++ [.opened L]) := by
      rw [cycle_append_opened]
      exact List.not_mem_nil
    exact ⟨fun hb => absurd hb hnil, fun hg => absurd hg hnil, hfollows, hprograms, hnothing,
      hfresh⟩
  · have hopen := not_exists.1 hopen
    have hread := (hinv.advance hstep hlt hopen).2.1
    refine ⟨fun hb => ?_, fun hg => ?_, hfollows, hprograms, hnothing, hfresh⟩
    · rw [cycle_append_of_ne hopen] at hb
      exact hsess.replays_step hn hinv hstep hread hopen hb
    · rw [cycle_append_of_ne hopen] at hg
      exact hsess.reads_step hinv hstep hread hopen hg

end Sessions

/-- The trace names the handles, and has their sessions. -/
structure Traced (tr : List Event) (s : Sys) : Prop extends Inv tr s, Named tr s, Sessions tr s

end TxnDb
