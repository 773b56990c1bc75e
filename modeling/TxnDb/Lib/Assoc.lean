import Mathlib.Algebra.Ring.Nat
import Mathlib.Data.List.AList
import Mathlib.Data.List.GetD
import Mathlib.Data.List.Induction
import Mathlib.Data.List.Sort
import Mathlib.Order.Nat

/-!
# Lists and association maps

What a list read by position is, with an element at its end or in the place of
another one; the bounds of the greatest number of a list; the sorted list of
elements with distinct keys, which is the same whatever order they were in; and
what finite maps given by association lists (`AList`) need besides insertion and
lookup: `AList.retain`, which visits every entry, replacing its value or dropping
it; and `AList.flatMap_entries_perm`, for a map kept in parts.
-/

namespace List

variable {α : Type*}

theorem getD_concat (l : List α) (x d : α) (i : ℕ) :
    (l ++ [x]).getD i d = if i = l.length then x else l.getD i d := by
  rcases lt_trichotomy i l.length with hlt | rfl | hgt
  · rw [getD_append _ _ _ _ hlt, if_neg hlt.ne]
  · rw [getD_append_right _ _ _ _ le_rfl, if_pos rfl, Nat.sub_self]
    rfl
  · rw [if_neg hgt.ne', getD_eq_default _ _ hgt.le,
      getD_eq_default _ _ (by simpa using Nat.succ_le_of_lt hgt)]

theorem getD_set {l : List α} {i : ℕ} (hi : i < l.length) (x d : α) (j : ℕ) :
    (l.set i x).getD j d = if j = i then x else l.getD j d := by
  simp only [getD_eq_getElem?_getD, getElem?_set]
  by_cases heq : j = i
  · rw [heq, if_pos rfl, if_pos hi, if_pos rfl]
    rfl
  · rw [if_neg (Ne.symm heq), if_neg heq]

/-- One term of a sum changes. -/
theorem sum_map_modify (g : α → ℕ) (f : α → α) {l : List α} {i : ℕ} (hi : i < l.length) :
    ((l.modify i f).map g).sum + g l[i] = (l.map g).sum + g (f l[i]) := by
  induction l generalizing i with
  | nil => exact absurd hi (Nat.not_lt_zero i)
  | cons x l ih =>
    cases i with
    | zero =>
      simp only [modify_zero_cons, map_cons, sum_cons, getElem_cons_zero]
      omega
    | succ i =>
      have ih := ih (Nat.lt_of_succ_lt_succ hi)
      simp only [modify_succ_cons, map_cons, sum_cons, getElem_cons_succ]
      omega

theorem sum_map_set (g : α → ℕ) {l : List α} {i : ℕ} (hi : i < l.length) (x : α) :
    ((l.set i x).map g).sum + g l[i] = (l.map g).sum + g x := by
  rw [set_eq_modify]
  exact sum_map_modify g (fun _ => x) hi

theorem foldl_max_le_iff {l : List ℕ} {N : ℕ} : l.foldl max 0 ≤ N ↔ ∀ n ∈ l, n ≤ N := by
  induction l using reverseRecOn with
  | nil => exact iff_of_true (Nat.zero_le N) fun _ hn => absurd hn not_mem_nil
  | append_singleton l m ih =>
    rw [foldl_append, foldl_cons, foldl_nil, Nat.max_le, ih, forall_mem_append,
      forall_mem_singleton]

section

variable {κ : Type*} [LinearOrder κ] {key : α → κ} {l l' : List α}

/-- Sorted by keys, which are distinct, the elements are in strictly ascending order. -/
theorem pairwise_lt_insertionSort (h : (l.map key).Nodup) :
    (l.insertionSort fun a b => key a ≤ key b).Pairwise fun a b => key a < key b := by
  have hsort := pairwise_insertionSort (fun a b => key a ≤ key b) l
  have hnodup := ((perm_insertionSort (fun a b => key a ≤ key b) l).map key).nodup_iff.2 h
  rw [Nodup, pairwise_map] at hnodup
  exact (hsort.and hnodup).imp fun h => lt_of_le_of_ne h.1 h.2

/-- The same elements, with distinct keys, are sorted to the same list. -/
theorem insertionSort_eq_of_perm (h : (l.map key).Nodup) (hperm : l.Perm l') :
    l.insertionSort (fun a b => key a ≤ key b) = l'.insertionSort (fun a b => key a ≤ key b) := by
  have h' : (l'.map key).Nodup := (hperm.map key).nodup_iff.1 h
  refine Perm.eq_of_pairwise (fun a b _ _ hab hba => absurd hab (lt_asymm hba))
    (pairwise_lt_insertionSort h) (pairwise_lt_insertionSort h') ?_
  exact (perm_insertionSort _ l).trans (hperm.trans (perm_insertionSort _ l').symm)

end

end List

namespace AList

variable {α β : Type*}

/-- The entries for which `f` gives a value, with that value. -/
def retain (f : α → β → Option β) (m : AList fun _ : α => β) : AList fun _ : α => β where
  entries := m.entries.filterMap fun e => (f e.1 e.2).map (⟨e.1, ·⟩)
  nodupKeys := by
    rw [List.nodupKeys_iff_pairwise, List.pairwise_filterMap]
    refine (List.nodupKeys_iff_pairwise.1 m.nodupKeys).imp fun {x y} hxy u hu w hw => ?_
    obtain ⟨_, _, rfl⟩ := Option.map_eq_some_iff.1 hu
    obtain ⟨_, _, rfl⟩ := Option.map_eq_some_iff.1 hw
    exact hxy

/-- The entries of a map are those of its parts, none of which share a key. -/
theorem flatMap_entries_perm {ι : Type*} {l : List ι} {part : ι → AList fun _ : α => β}
    {m : AList fun _ : α => β} (hl : l.Nodup)
    (hdisj : ∀ i j k, k ∈ part i → k ∈ part j → i = j)
    (hmem : ∀ e, (∃ i ∈ l, e ∈ (part i).entries) ↔ e ∈ m.entries) :
    (l.flatMap fun i => (part i).entries).Perm m.entries := by
  have hkey : ∀ {i e}, e ∈ (part i).entries → e.1 ∈ part i := List.mem_keys_of_mem
  refine (List.perm_ext_iff_of_nodup (List.nodup_flatMap.2 ⟨fun i _ => ?_, ?_⟩) ?_).2 fun e => ?_
  · exact (part i).nodupKeys.nodup
  · refine hl.imp fun {i j} hij => List.disjoint_left.2 fun e hi hj => ?_
    exact hij (hdisj i j e.1 (hkey hi) (hkey hj))
  · exact m.nodupKeys.nodup
  · rw [List.mem_flatMap, hmem]

variable [DecidableEq α]

theorem dlookup_filterMap (f : α → β → Option β) {l : List ((_ : α) × β)} (hl : l.NodupKeys)
    (k : α) : (l.filterMap fun e => (f e.1 e.2).map (Sigma.mk (β := fun _ => β) e.1)).dlookup k =
      (l.dlookup k).bind (f k) := by
  induction l with
  | nil => rfl
  | cons e l ih =>
    obtain ⟨a, b⟩ := e
    obtain ⟨ha, hl'⟩ := List.nodupKeys_cons.1 hl
    by_cases hk : k = a
    · subst hk
      have hnone : l.dlookup k = none := List.dlookup_eq_none.2 ha
      cases hf : f k b with
      | none => simp [hf, ih hl', hnone]
      | some b' => simp [hf]
    · cases hf : f a b with
      | none => simp [hf, ih hl', List.dlookup_cons_ne l ⟨a, b⟩ hk]
      | some b' =>
        simp [hf, ih hl', List.dlookup_cons_ne _ (Sigma.mk (β := fun _ => β) a b') hk,
          List.dlookup_cons_ne l ⟨a, b⟩ hk]

@[simp] theorem lookup_retain (f : α → β → Option β) (m : AList fun _ : α => β) (k : α) :
    (m.retain f).lookup k = (m.lookup k).bind (f k) :=
  dlookup_filterMap f m.nodupKeys k

end AList
