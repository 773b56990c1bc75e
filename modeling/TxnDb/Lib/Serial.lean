import Mathlib.Data.List.Induction
import Mathlib.Logic.Function.Basic
import TxnDb.Lib.History

/-!
# Serial execution

A transaction as a program run on a plain key-value map: the operations it
made (`Op`), with the values its reads returned. Executed one after the other
on a map (`execOps`), the operations *replay* (`Replays`) if every read finds
in the map, at its turn, the value it returned. A list of transactions is
serial from a map (`Serial`) if every one replays from the map the ones before
it left.

A transaction depends on the map it starts from through its *fresh* reads only,
those of the keys it has not written before (`Replays.congr`). So a history in
any order is serial, if what the transactions before it left on the keys it
reads fresh is what each of them read (`serial_of_forall`).
-/

namespace Mvcc

open List

/-- An operation: a read, with the value it returned, or a write. -/
inductive Op (K V : Type*)
  | get (k : K) (v : Option V)
  | write (k : K) (v : Option V)
  deriving DecidableEq

variable {K V : Type*} [DecidableEq K]

/-- The effect of an operation on the map. -/
def Op.exec (m : K → Option V) : Op K V → K → Option V
  | .get _ _ => m
  | .write k v => Function.update m k v

/-- The map left by the operations. -/
def execOps (m : K → Option V) (ops : List (Op K V)) : K → Option V := ops.foldl Op.exec m

/-- Every read finds the value it returned. -/
def Replays (m : K → Option V) : List (Op K V) → Prop
  | [] => True
  | .get k v :: ops => m k = v ∧ Replays m ops
  | .write k v :: ops => Replays (Function.update m k v) ops

/-- The operations read `k` before writing it. -/
def ReadsFresh (k : K) : List (Op K V) → Prop
  | [] => False
  | .get k' _ :: ops => k' = k ∨ ReadsFresh k ops
  | .write k' _ :: ops => k' ≠ k ∧ ReadsFresh k ops

/-- What the operations last wrote to `k`, if they did. -/
def buffered (ops : List (Op K V)) (k : K) : Option (Option V) :=
  ops.foldl (fun w op => match op with
    | .get _ _ => w
    | .write k' v => if k' = k then some v else w) none

instance decidableReplays [DecidableEq V] :
    (m : K → Option V) → (ops : List (Op K V)) → Decidable (Replays m ops)
  | _, [] => inferInstanceAs (Decidable True)
  | m, .get k v :: ops => @instDecidableAnd (m k = v) _ _ (decidableReplays m ops)
  | m, .write k v :: ops => decidableReplays (Function.update m k v) ops

/-- The transactions, each given by its operations, replay one after the other. -/
def Serial (m : K → Option V) : List (List (Op K V)) → Prop
  | [] => True
  | ops :: rest => Replays m ops ∧ Serial (execOps m ops) rest

instance decidableSerial [DecidableEq V] :
    (m : K → Option V) → (l : List (List (Op K V))) → Decidable (Serial m l)
  | _, [] => inferInstanceAs (Decidable True)
  | m, ops :: rest => @instDecidableAnd _ _ (decidableReplays m ops) (decidableSerial _ rest)

variable {m m' : K → Option V} {ops : List (Op K V)} {k k' : K} {v : Option V}

/-! ## One transaction -/

@[simp] theorem buffered_nil : buffered ([] : List (Op K V)) k = none := rfl

@[simp] theorem buffered_append_get : buffered (ops ++ [.get k' v]) k = buffered ops k := by
  simp [buffered]

@[simp] theorem buffered_append_write :
    buffered (ops ++ [.write k' v]) k = if k' = k then some v else buffered ops k := by
  simp [buffered]

@[simp] theorem execOps_nil : execOps m [] = m := rfl

theorem execOps_append_singleton {op : Op K V} :
    execOps m (ops ++ [op]) = op.exec (execOps m ops) := by
  simp [execOps]

/-- The operations leave what they last wrote, and keep the rest. -/
theorem execOps_apply (m : K → Option V) (ops : List (Op K V)) (k : K) :
    execOps m ops k = (buffered ops k).getD (m k) := by
  induction ops using List.reverseRecOn with
  | nil => rfl
  | append_singleton ops op ih =>
    rw [execOps_append_singleton]
    cases op with
    | get k' v => rw [buffered_append_get]; exact ih
    | write k' v =>
      rw [buffered_append_write, Op.exec, Function.update_apply]
      by_cases hk : k' = k
      · rw [if_pos hk.symm, if_pos hk]
        rfl
      · rw [if_neg (Ne.symm hk), if_neg hk, ih]

theorem replays_append_get :
    Replays m (ops ++ [.get k v]) ↔ Replays m ops ∧ execOps m ops k = v := by
  induction ops generalizing m with
  | nil => simp [Replays]
  | cons op ops ih => cases op <;> simp [Replays, ih, execOps, Op.exec, and_assoc]

theorem replays_append_write : Replays m (ops ++ [.write k v]) ↔ Replays m ops := by
  induction ops generalizing m with
  | nil => simp [Replays]
  | cons op ops ih => cases op <;> simp [Replays, ih]

theorem buffered_cons_write :
    buffered (.write k' v :: ops) k = (buffered ops k).or (if k' = k then some v else none) := by
  induction ops using List.reverseRecOn with
  | nil => simp [buffered]
  | append_singleton ops op ih =>
    rw [← cons_append]
    cases op with
    | get k'' v' => rw [buffered_append_get, buffered_append_get, ih]
    | write k'' v' =>
      rw [buffered_append_write, buffered_append_write, ih]
      split_ifs <;> simp

/-- What was written is buffered. -/
theorem buffered_ne_none_of_mem (h : .write k v ∈ ops) : buffered ops k ≠ none := by
  induction ops using List.reverseRecOn with
  | nil => exact absurd h not_mem_nil
  | append_singleton ops op ih =>
    cases op with
    | get k' v' =>
      rw [buffered_append_get]
      exact ih ((mem_append.1 h).resolve_right (by simp))
    | write k' v' =>
      rw [buffered_append_write]
      split_ifs with hk
      · exact Option.some_ne_none _
      · refine ih ((mem_append.1 h).resolve_right fun hop => hk ?_)
        cases mem_singleton.1 hop
        rfl

/-- What is buffered was written. -/
theorem exists_write_of_buffered (h : buffered ops k = some v) : ∃ v, .write k v ∈ ops := by
  induction ops using List.reverseRecOn with
  | nil => cases h
  | append_singleton ops op ih =>
    cases op with
    | get k' v' =>
      rw [buffered_append_get] at h
      exact (ih h).imp fun _ => mem_append_left _
    | write k' v' =>
      rw [buffered_append_write] at h
      split_ifs at h with hk
      · exact ⟨v', by simp [hk]⟩
      · exact (ih h).imp fun _ => mem_append_left _

theorem readsFresh_append_get :
    ReadsFresh k (ops ++ [.get k' v]) ↔ ReadsFresh k ops ∨ (k' = k ∧ buffered ops k = none) := by
  induction ops with
  | nil => simp [ReadsFresh]
  | cons op ops ih =>
    cases op with
    | get k'' v' =>
      have hb : buffered (.get k'' v' :: ops) k = buffered ops k := rfl
      simp only [cons_append, ReadsFresh, ih, hb, or_assoc]
    | write k'' v' =>
      simp only [cons_append, ReadsFresh, ih, buffered_cons_write, Option.or_eq_none_iff]
      by_cases hk : k'' = k
      · simp [hk]
      · simp [hk]

omit [DecidableEq K] in
theorem readsFresh_append_write :
    ReadsFresh k (ops ++ [.write k' v]) ↔ ReadsFresh k ops := by
  induction ops with
  | nil => simp [ReadsFresh]
  | cons op ops ih => cases op <;> simp [ReadsFresh, ih]

/-- Operations replay in turn, from what those before them leave. -/
theorem replays_append {ops' : List (Op K V)} :
    Replays m (ops ++ ops') ↔ Replays m ops ∧ Replays (execOps m ops) ops' := by
  induction ops generalizing m with
  | nil => simp [Replays]
  | cons op ops ih => cases op <;> simp [Replays, ih, execOps, Op.exec, and_assoc]

/-- A read that replays returns what was last written before it, or else what is in the map. -/
theorem Replays.eq_buffered {post : List (Op K V)} (h : Replays m (ops ++ .get k v :: post)) :
    v = (buffered ops k).getD (m k) :=
  (replays_append.1 h).2.1.symm.trans (execOps_apply m ops k)

/-- The keys read before being written are those that some read finds unwritten. -/
theorem readsFresh_iff : ReadsFresh k ops ↔
    ∃ pre v post, ops = pre ++ .get k v :: post ∧ buffered pre k = none := by
  constructor
  · intro h
    induction ops with
    | nil => exact h.elim
    | cons op ops ih =>
      cases op with
      | get k' v =>
        rcases h with rfl | h
        · exact ⟨[], v, ops, rfl, rfl⟩
        · obtain ⟨pre, v', post, rfl, hb⟩ := ih h
          exact ⟨.get k' v :: pre, v', post, rfl, hb⟩
      | write k' v =>
        obtain ⟨pre, v', post, rfl, hb⟩ := ih h.2
        exact ⟨.write k' v :: pre, v', post, rfl, by rw [buffered_cons_write, hb, if_neg h.1]; rfl⟩
  · rintro ⟨pre, v, post, rfl, hb⟩
    induction pre with
    | nil => exact .inl rfl
    | cons op pre ih =>
      cases op with
      | get k' v' => exact .inr (ih hb)
      | write k' v' =>
        -- the write is not of `k`, which would be buffered
        rw [buffered_cons_write, Option.or_eq_none_iff] at hb
        exact ⟨fun heq => by simp [heq] at hb, ih hb.1⟩

/-- The replay depends on the fresh reads only. -/
theorem Replays.congr (h : Replays m ops) (hm : ∀ k, ReadsFresh k ops → m k = m' k) :
    Replays m' ops := by
  induction ops generalizing m m' with
  | nil => trivial
  | cons op ops ih =>
    cases op with
    | get k v => exact ⟨hm k (.inl rfl) ▸ h.1, ih h.2 fun k hk => hm k (.inr hk)⟩
    | write k v =>
      refine ih (m := Function.update m k v) h fun k' hk' => ?_
      by_cases hk : k' = k
      · rw [hk, Function.update_self, Function.update_self]
      · rw [Function.update_of_ne hk, Function.update_of_ne hk]
        exact hm k' ⟨Ne.symm hk, hk'⟩

/-! ## Histories -/

variable {T : Type*}

theorem serial_append_singleton {l : List (List (Op K V))} :
    Serial m (l ++ [ops]) ↔ Serial m l ∧ Replays (l.foldl execOps m) ops := by
  induction l generalizing m with
  | nil => simp [Serial]
  | cons o l ih => simp [Serial, ih, and_assoc]

/-- A history whose transactions write what their operations do leaves the map
    its serial execution does. -/
theorem foldl_execOps_eq_current {ops : Txn K V T → List (Op K V)} {L : List (Txn K V T)}
    (hbuf : ∀ a ∈ L, ∀ k, buffered (ops a) k = a.writes.dlookup k) :
    (L.map ops).foldl execOps (fun _ => none) = current L := by
  induction L using List.reverseRecOn with
  | nil => rfl
  | append_singleton L a ih =>
    rw [map_append, foldl_append, ih fun b hb => hbuf b (mem_append_left _ hb)]
    funext k
    rw [map_singleton, foldl_cons, foldl_nil, execOps_apply, hbuf a (by simp),
      current_append_singleton]

/-- A history is serial, if every transaction replays from the map left by the
    transactions before it. -/
theorem serial_of_forall {ops : Txn K V T → List (Op K V)} {L : List (Txn K V T)}
    (hbuf : ∀ a ∈ L, ∀ k, buffered (ops a) k = a.writes.dlookup k)
    (hrep : ∀ P a Q, L = P ++ a :: Q → Replays (current P) (ops a)) :
    Serial (fun _ => none) (L.map ops) := by
  induction L using List.reverseRecOn with
  | nil => trivial
  | append_singleton L a ih =>
    rw [map_append, map_singleton, serial_append_singleton,
      foldl_execOps_eq_current fun b hb => hbuf b (mem_append_left _ hb)]
    refine ⟨ih (fun b hb => hbuf b (mem_append_left _ hb)) fun P b Q hL => ?_, hrep L a [] rfl⟩
    exact hrep P b (Q ++ [a]) (by rw [hL]; simp)

variable [LinearOrder T]

/-- A list in which every transaction precedes the next ones is serial, if every
    transaction replays from what it sees in it, and touches what it reads. -/
theorem serial_of_precedes {ops : Txn K V T → List (Op K V)} {L : List (Txn K V T)}
    (hL : L.Pairwise Precedes) (hlt : ∀ a ∈ L, ∀ k, a.Writes k → a.readTs < a.commitTs)
    (hbuf : ∀ a ∈ L, ∀ k, buffered (ops a) k = a.writes.dlookup k)
    (hrep : ∀ a ∈ L, Replays (snapshot L a.readTs) (ops a))
    (hfresh : ∀ a ∈ L, ∀ k, ReadsFresh k (ops a) → a.Touches k) :
    Serial (fun _ => none) (L.map ops) := by
  refine serial_of_forall hbuf fun P a Q heq => ?_
  have ha : a ∈ L := heq ▸ mem_append_right _ mem_cons_self
  refine (hrep a ha).congr fun k hk => ?_
  rw [heq]
  exact snapshot_eq_current_of_precedes (heq ▸ hL) (hfresh a ha k hk) (hlt a ha k)

end Mvcc
