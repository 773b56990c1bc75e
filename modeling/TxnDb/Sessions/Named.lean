import TxnDb.Invariant
import TxnDb.Overlay

/-!
# Handles and their names

The operations made through a handle, with the values its reads returned, are a
part of the trace (`session`). The trace names the handles consistently: a
handle begins once, and everything in its session happens at the timestamp it
began at (`Named`).

Opening a database starts a new history; `cycle` is the part of the trace since
it was last opened.
-/

namespace TxnDb

open Mvcc

variable {tr : List Event} {s s' : Sys} {h r : ℕ} {e : Event} {a : Attempt} {k : Key} {kind : Kind}

/-- The events since the database was last opened. -/
def cycle (tr : List Event) : List Event :=
  tr.foldl (fun c e => match e with | .opened _ => [] | e => c ++ [e]) []

/-- The operation observed, if it is made through `h`. -/
def Event.op (h : ℕ) : Event → Option (Op Key Value)
  | .got h' _ k v _ => if h' = h then some (.get k v) else none
  | .wrote h' k v => if h' = h then some (.write k v) else none
  | _ => none

/-- The operations made through `h`. -/
def session (tr : List Event) (h : ℕ) : List (Op Key Value) := tr.filterMap (Event.op h)

theorem cycle_append_singleton :
    cycle (tr ++ [e]) = match e with | .opened _ => [] | e => cycle tr ++ [e] := by
  simp [cycle]

theorem cycle_append_of_ne (hopen : ∀ L, e ≠ .opened L) : cycle (tr ++ [e]) = cycle tr ++ [e] := by
  rw [cycle_append_singleton]
  split
  · exact absurd rfl (hopen _)
  · rfl

theorem cycle_append_opened {L : List Attempt} : cycle (tr ++ [.opened L]) = [] := by
  simp [cycle]

theorem mem_of_mem_cycle (he : e ∈ cycle tr) : e ∈ tr := by
  induction tr using List.reverseRecOn with
  | nil => exact he
  | append_singleton tr e' ih =>
    rw [cycle_append_singleton] at he
    split at he
    · exact absurd he List.not_mem_nil
    · exact List.mem_append.2 ((List.mem_append.1 he).imp_left ih)

/-- A trace in which the database is not opened is one cycle. -/
theorem cycle_eq_self (hno : ∀ L, .opened L ∉ tr) : cycle tr = tr := by
  induction tr using List.reverseRecOn with
  | nil => rfl
  | append_singleton tr e ih =>
    rw [cycle_append_of_ne fun L heq => hno L (by simp [heq]),
      ih fun L hL => hno L (List.mem_append_left _ hL)]

/-- If the database is not opened again, the history is what was committed. -/
theorem mem_history (hno : ∀ L, .opened L ∉ tr) : a ∈ history tr ↔ .committed a ∈ tr := by
  induction tr using List.reverseRecOn with
  | nil => simp
  | append_singleton tr e ih =>
    have ih := ih fun L hL => hno L (List.mem_append_left _ hL)
    rw [history_append_singleton, List.mem_append, List.mem_singleton, ← ih]
    cases e with
    | committed b => simp [Event.extend]
    | opened L => exact absurd (by simp) (hno L)
    | _ => simp [Event.extend]

/-- The cycle goes on until the database is opened again. -/
theorem cycle_append {tr' : List Event} (hno : ∀ L, .opened L ∉ tr') :
    cycle (tr ++ tr') = cycle tr ++ tr' := by
  induction tr' using List.reverseRecOn with
  | nil => simp
  | append_singleton tr' e ih =>
    rw [← List.append_assoc, cycle_append_of_ne fun L heq => hno L (by simp [heq]),
      ih fun L hL => hno L (List.mem_append_left _ hL), List.append_assoc]

/-- A cycle begins after the database is opened. -/
theorem mem_of_mem_cycle_append_opened {tr' : List Event} {L : List Attempt}
    (he : e ∈ cycle (tr ++ .opened L :: tr')) : e ∈ tr' := by
  induction tr' using List.reverseRecOn with
  | nil =>
    rw [cycle_append_opened] at he
    exact absurd he List.not_mem_nil
  | append_singleton tr' e' ih =>
    rw [← List.cons_append, ← List.append_assoc, cycle_append_singleton] at he
    split at he
    · exact absurd he List.not_mem_nil
    · exact List.mem_append.2 ((List.mem_append.1 he).imp_left ih)

/-- What was committed since the database was opened is in the history. -/
theorem mem_history_of_mem_cycle (hc : .committed a ∈ cycle tr) : a ∈ history tr := by
  induction tr using List.reverseRecOn with
  | nil => exact absurd hc List.not_mem_nil
  | append_singleton tr e ih =>
    rw [history_append_singleton]
    cases e with
    | opened L =>
      rw [cycle_append_opened] at hc
      exact absurd hc List.not_mem_nil
    | committed b =>
      rw [cycle_append_of_ne (by simp), List.mem_append, List.mem_singleton] at hc
      rcases hc with hc | hc
      · exact List.mem_append_left _ (ih hc)
      · exact List.mem_append_right _ (List.mem_singleton.2 (Event.committed.inj hc))
    | _ =>
      rw [cycle_append_of_ne (by simp), List.mem_append, List.mem_singleton] at hc
      exact ih (hc.resolve_right (by simp))

theorem session_append_singleton : session (tr ++ [e]) h = session tr h ++ (e.op h).toList := by
  cases ho : e.op h <;> simp [session, ho]

theorem session_append_of_none (ho : e.op h = none) : session (tr ++ [e]) h = session tr h := by
  rw [session_append_singleton, ho]
  exact List.append_nil _

theorem session_append_got {v : Option Value} {own : Bool} :
    session (tr ++ [.got h r k v own]) h = session tr h ++ [.get k v] := by
  rw [session_append_singleton, Event.op, if_pos rfl, Option.toList_some]

theorem session_append_wrote {v : Option Value} :
    session (tr ++ [.wrote h k v]) h = session tr h ++ [.write k v] := by
  rw [session_append_singleton, Event.op, if_pos rfl, Option.toList_some]

/-- A read leaves what is buffered. -/
theorem buffered_got {v : Option Value} {own : Bool} (k' : Key) :
    buffered (session (tr ++ [.got h r k v own]) h) k' = buffered (session tr h) k' := by
  rw [session_append_got, buffered_append_get]

/-- A write is buffered. -/
theorem buffered_wrote {v : Option Value} {tx : Transaction}
    (hw : ∀ k', buffered (session tr h) k' = tx.writes.lookup k') (k' : Key) :
    buffered (session (tr ++ [.wrote h k v]) h) k' = (tx.writes.insert k v).lookup k' := by
  rw [session_append_wrote, buffered_append_insert hw]

theorem mem_append_singleton_of_ne {e' : Event} (hne : e' ≠ e) : e' ∈ tr ++ [e] ↔ e' ∈ tr := by
  simp [hne]

/-! ## Names -/

/-- A handle that has nothing more to commit. -/
def Handle.Done : Handle → Prop
  | .finished _ _ | .closed => True
  | _ => False

theorem Step.done (hstep : Step s e s') (hd : (s.handle h).Done) (hlt : h < s.handles.length) :
    (s'.handle h).Done := by
  cases hstep with
  | began => rwa [Sys.handle_add, if_neg hlt.ne]
  | gotSnapshot | swept | pruned => exact hd
  | gotStore hh | gotOwn hh | wrote hh | readOnly hh | allocated hh | returned hh
  | droppedSnapshot hh | droppedTransaction hh | reported hh | committed hh | conflicted hh
  | appending hh | appended hh | appendFailed hh =>
    exact Sys.handle_set_keeps Handle.Done (Sys.ne_closed hh rfl) hd fun hd => by
      rw [hh] at hd
      trivial
  | opened => rw [Sys.handle_map_closed]; trivial

/-- The trace names the handles consistently. -/
structure Named (tr : List Event) (s : Sys) : Prop where
  lt : ∀ {h kind r}, .began h kind r ∈ tr → h < s.handles.length
  /-- A handle begins once. -/
  unique : ∀ {h kind kind' r r'}, .began h kind r ∈ tr → .began h kind' r' ∈ tr →
    kind = kind' ∧ r = r'
  /-- A handle reads at the timestamp it began at. -/
  began : ∀ {h r}, (s.handle h).readTs = some r → ∃ kind, .began h kind r ∈ cycle tr
  got : ∀ {h r k v own}, .got h r k v own ∈ tr → ∃ kind, .began h kind r ∈ tr
  wrote : ∀ {h k v}, .wrote h k v ∈ tr → ∃ kind r, .began h kind r ∈ tr
  /-- The handle of a committed attempt began at its timestamp, and is past it. -/
  committed : ∀ {a}, .committed a ∈ tr →
    (∃ kind, .began a.id kind a.readTs ∈ tr) ∧ a.id < s.handles.length ∧ (s.handle a.id).Past a
  /-- A transaction with nothing to write began at its timestamp, and is done. -/
  readOnly : ∀ {h r}, .readOnly h r ∈ tr →
    (∃ kind, .began h kind r ∈ tr) ∧ h < s.handles.length ∧ (s.handle h).Done

theorem named_nil (hs : s.handles = []) : Named [] s := by
  refine ⟨nofun, nofun, fun {h r} hr => ?_, nofun, nofun, nofun, nofun⟩
  rw [Sys.handle, hs] at hr
  cases hr

theorem Named.step (hn : Named tr s) (hinv : Inv tr s) (hstep : Step s e s') :
    Named (tr ++ [e]) s' := by
  have hmono : ∀ {e'}, e' ∈ tr → e' ∈ tr ++ [e] := List.mem_append_left _
  -- a handle that is new to the trace is the next one
  have hbegan : ∀ {h kind r}, .began h kind r ∈ tr ++ [e] → .began h kind r ∈ tr ∨
      (e = .began h kind r ∧ h = s.handles.length ∧ s.handles.length < s'.handles.length) := by
    intro h kind r hb
    refine (List.mem_append.1 hb).imp_right fun hb => ?_
    obtain rfl := List.mem_singleton.1 hb
    cases hstep with
    | began => exact ⟨rfl, rfl, by simp [Sys.add]⟩
  refine ⟨fun hb => ?_, fun hb hb' => ?_, fun {h r} hr => ?_, fun hg => ?_, fun hw => ?_,
    fun {a} hc => ?_, fun {h r} hro => ?_⟩
  · rcases hbegan hb with hb | ⟨-, rfl, hlt⟩
    · exact (hn.lt hb).trans_le hstep.length_le
    · exact hlt
  · rcases hbegan hb with hb | ⟨he, heq, -⟩ <;> rcases hbegan hb' with hb' | ⟨he', heq', -⟩
    · exact hn.unique hb hb'
    · exact absurd heq' (hn.lt hb).ne
    · exact absurd heq (hn.lt hb').ne
    · cases he.symm.trans he'
      exact ⟨rfl, rfl⟩
  · by_cases hopen : ∃ L, e = .opened L
    · obtain ⟨L, rfl⟩ := hopen
      cases hstep with
      | opened => rw [Sys.handle_map_closed] at hr; cases hr
    · rw [cycle_append_of_ne (not_exists.1 hopen)]
      rcases hstep.readTs_handle hr with hr | ⟨-, kind, rfl⟩
      · obtain ⟨kind, hb⟩ := hn.began hr
        exact ⟨kind, List.mem_append_left _ hb⟩
      · exact ⟨kind, by simp⟩
  · rcases List.mem_append.1 hg with hg | hg
    · exact (hn.got hg).imp fun _ => hmono
    · obtain rfl := List.mem_singleton.1 hg
      cases hstep with
      | gotSnapshot hh | gotStore hh | gotOwn hh =>
        obtain ⟨kind, hb⟩ := hn.began (congrArg Handle.readTs hh)
        exact ⟨kind, hmono (mem_of_mem_cycle hb)⟩
  · rcases List.mem_append.1 hw with hw | hw
    · obtain ⟨kind, r, hb⟩ := hn.wrote hw
      exact ⟨kind, r, hmono hb⟩
    · obtain rfl := List.mem_singleton.1 hw
      cases hstep with
      | wrote hh =>
        obtain ⟨kind, hb⟩ := hn.began (congrArg Handle.readTs hh)
        exact ⟨kind, _, hmono (mem_of_mem_cycle hb)⟩
  · rcases List.mem_append.1 hc with hc | hc
    · obtain ⟨⟨kind, hb⟩, hlt, hp⟩ := hn.committed hc
      exact ⟨⟨kind, hmono hb⟩, hstep.past hlt hp⟩
    · obtain rfl := List.mem_singleton.1 hc
      cases hstep with
      | @committed h _ _ _ hh hok hstage =>
        obtain ⟨kind, hb⟩ := hn.began (congrArg Handle.readTs hh)
        have hclosed := ne_closed_of_readTs (congrArg Handle.readTs hh)
        rw [(hinv.attempts hh).id, Sys.handle_set_self hclosed, Sys.length_handles_set]
        exact ⟨⟨kind, hmono (mem_of_mem_cycle hb)⟩, Sys.lt_of_handle hclosed, rfl⟩
  · rcases List.mem_append.1 hro with hold | hnew
    · obtain ⟨⟨kind, hb⟩, hlt, hd⟩ := hn.readOnly hold
      exact ⟨⟨kind, hmono hb⟩, hlt.trans_le hstep.length_le, hstep.done hd hlt⟩
    · obtain rfl := List.mem_singleton.1 hnew
      cases hstep with
      | readOnly hh =>
        obtain ⟨kind, hb⟩ := hn.began (congrArg Handle.readTs hh)
        have hclosed := ne_closed_of_readTs (congrArg Handle.readTs hh)
        rw [Sys.handle_set_self hclosed, Sys.length_handles_set]
        exact ⟨⟨kind, hmono (mem_of_mem_cycle hb)⟩, Sys.lt_of_handle hclosed, trivial⟩

end TxnDb
