import Mathlib.Data.List.Sort
import Mathlib.Order.Nat

/-!
# Searching sorted lists

Bisection over a list read by position, as the slice searches of a standard
library do it: `partitionPoint` finds where a predicate stops holding on a
*partitioned* list (one whose elements satisfying it all come first), and
`binarySearch` looks a value up in a sorted list.

* `partitionPoint_splits`: on a partitioned list, the position splits it into
  the elements satisfying the predicate and the rest;
* `partitionPoint_take`: those before it are the elements satisfying it;
* `binarySearch_of_mem`: a value of a sorted list is found, at a position
  holding it.

`dedupRuns` removes repeated neighbours, which makes a sorted list strictly
sorted (`dedupRuns_sortedLT`) and keeps its elements (`mem_dedupRuns`).
-/

namespace Search

variable {α : Type*}

/-! ## Bisection -/

/-- The bisection loop, between the positions `lo` and `hi`. -/
def bisect (p : α → Bool) (l : List α) : (fuel lo hi : ℕ) → ℕ
  | 0, lo, _ => lo
  | fuel + 1, lo, hi =>
    if lo < hi then
      if l[(lo + hi) / 2]?.any p then bisect p l fuel ((lo + hi) / 2 + 1) hi
      else bisect p l fuel lo ((lo + hi) / 2)
    else lo

/-- The position at which the predicate `p` stops holding on the list `l`. -/
def partitionPoint (l : List α) (p : α → Bool) : ℕ :=
  bisect p l l.length 0 l.length

/-- The list `l` is partitioned by `p`: the elements satisfying it come first. -/
def Partitioned (p : α → Bool) (l : List α) : Prop :=
  l.Pairwise fun a b => p b = true → p a = true

/-- The position `n` splits `l` by `p`: it holds before `n`, and fails from `n` on. -/
structure Splits (p : α → Bool) (l : List α) (n : ℕ) : Prop where
  le : n ≤ l.length
  before : ∀ i (hi : i < l.length), i < n → p l[i] = true
  after : ∀ i (hi : i < l.length), n ≤ i → p l[i] = false

/-- With enough fuel, bisection returns a splitting position, given that the
    predicate holds before `lo` and fails from `hi` on. -/
theorem bisect_splits {p : α → Bool} {l : List α} (hl : Partitioned p l) :
    ∀ {fuel lo hi : ℕ}, hi - lo ≤ fuel → lo ≤ hi → hi ≤ l.length →
      (∀ i (hi : i < l.length), i < lo → p l[i] = true) →
      (∀ i (h : i < l.length), hi ≤ i → p l[i] = false) → Splits p l (bisect p l fuel lo hi)
  -- on the fuel, at least as much as there are positions left
  | 0, lo, hi, hf, hlo, hhi, hb, ha => by
    obtain rfl : lo = hi := by omega
    exact ⟨hhi, hb, ha⟩
  | fuel + 1, lo, hi, hf, hlo, hhi, hb, ha => by
    rw [bisect]
    split_ifs with hlt hp
    · -- `p` holds in the middle, hence before it
      have hmid : (lo + hi) / 2 < l.length := by omega
      rw [List.getElem?_eq_getElem hmid, Option.any_some] at hp
      refine bisect_splits hl (by omega) (by omega) hhi (fun i hi hlt' => ?_) ha
      rcases Nat.lt_succ_iff_lt_or_eq.1 hlt' with h | rfl
      · exact List.pairwise_iff_getElem.1 hl i _ hi hmid h hp
      · exact hp
    · -- `p` fails in the middle, hence after it
      have hmid : (lo + hi) / 2 < l.length := by omega
      rw [List.getElem?_eq_getElem hmid, Option.any_some] at hp
      refine bisect_splits hl (by omega) (by omega) (by omega) hb fun i hi hle => ?_
      rcases Nat.eq_or_lt_of_le hle with rfl | h
      · simpa using hp
      · by_contra hpi
        exact hp (List.pairwise_iff_getElem.1 hl _ i hmid hi h (by simpa using hpi))
    · obtain rfl : lo = hi := by omega
      exact ⟨hhi, hb, ha⟩

theorem bisect_le {p : α → Bool} {l : List α} :
    ∀ {fuel lo hi : ℕ}, lo ≤ hi → bisect p l fuel lo hi ≤ hi
  | 0, lo, hi, h => h
  | fuel + 1, lo, hi, h => by
    rw [bisect]
    split_ifs with hlt hp
    · exact bisect_le (by omega)
    · exact (bisect_le (by omega)).trans (by omega)
    · exact h

/-- On any list, the position is one of the list, or its end. -/
theorem partitionPoint_le_length (p : α → Bool) (l : List α) : partitionPoint l p ≤ l.length :=
  bisect_le (Nat.zero_le _)

theorem partitionPoint_splits {p : α → Bool} {l : List α} (hl : Partitioned p l) :
    Splits p l (partitionPoint l p) :=
  bisect_splits hl (by omega) (Nat.zero_le _) le_rfl (fun _ _ h => absurd h (Nat.not_lt_zero _))
    fun i hi hle => absurd hi (not_lt.2 hle)

theorem Splits.take_eq_filter {p : α → Bool} {l : List α} {n : ℕ} (h : Splits p l n) :
    l.take n = l.filter p := by
  conv_rhs => rw [← List.take_append_drop n l, List.filter_append]
  have hdrop : (l.drop n).filter p = [] := by
    refine List.filter_eq_nil_iff.2 fun x hx => ?_
    obtain ⟨i, hi, rfl⟩ := List.mem_iff_getElem.1 hx
    rw [List.length_drop] at hi
    rw [List.getElem_drop, h.after _ (by omega) (by omega)]
    simp
  have htake : (l.take n).filter p = l.take n := by
    refine List.filter_eq_self.2 fun x hx => ?_
    obtain ⟨i, hi, rfl⟩ := List.mem_iff_getElem.1 hx
    rw [List.length_take] at hi
    rw [List.getElem_take]
    exact h.before i (by omega) (by omega)
  rw [htake, hdrop, List.append_nil]

/-- The elements before the position are those satisfying the predicate. -/
theorem partitionPoint_take {p : α → Bool} {l : List α} (hl : Partitioned p l) :
    l.take (partitionPoint l p) = l.filter p :=
  (partitionPoint_splits hl).take_eq_filter

/-- The position is the number of elements satisfying the predicate. -/
theorem partitionPoint_eq_length {p : α → Bool} {l : List α} (hl : Partitioned p l) :
    partitionPoint l p = (l.filter p).length := by
  rw [← partitionPoint_take hl, List.length_take, min_eq_left (partitionPoint_splits hl).le]

/-! ## Lookup in a sorted list -/

variable [LinearOrder α]

/-- Looking `x` up: the position holding it (`ok`), or the one at which it
    would be inserted (`error`). -/
def binarySearch (l : List α) (x : α) : Except ℕ ℕ :=
  let i := partitionPoint l (· < x)
  if l[i]? = some x then .ok i else .error i

theorem partitioned_lt {l : List α} (hl : l.Pairwise (· < ·)) (x : α) :
    Partitioned (fun y => decide (y < x)) l :=
  hl.imp fun hab hb => decide_eq_true (hab.trans (of_decide_eq_true hb))

/-- A position found holds the value. -/
theorem getElem?_of_binarySearch {l : List α} {x : α} {i : ℕ} (h : binarySearch l x = .ok i) :
    l[i]? = some x := by
  simp only [binarySearch] at h
  split_ifs at h with hx
  rwa [← Except.ok.inj h]

/-- A value of a strictly sorted list is found. -/
theorem binarySearch_of_mem {l : List α} (hl : l.Pairwise (· < ·)) {x : α} (hx : x ∈ l) :
    ∃ i, binarySearch l x = .ok i ∧ l[i]? = some x := by
  have hs := partitionPoint_splits (partitioned_lt hl x)
  obtain ⟨j, hj, rfl⟩ := List.mem_iff_getElem.1 hx
  have hle : partitionPoint l (fun y => decide (y < l[j])) ≤ j := by
    by_contra hlt
    simpa using hs.before j hj (by omega)
  have hge : j ≤ partitionPoint l (fun y => decide (y < l[j])) := by
    by_contra hlt
    have hi : partitionPoint l (fun y => decide (y < l[j])) < l.length := by omega
    have := hs.after _ hi le_rfl
    exact absurd (List.pairwise_iff_getElem.1 hl _ j hi hj (by omega)) (by simpa using this)
  have heq := le_antisymm hle hge
  refine ⟨j, ?_, List.getElem?_eq_getElem hj⟩
  rw [binarySearch, heq, List.getElem?_eq_getElem hj, if_pos rfl]

/-! ## Removing repeated neighbours -/

/-- The list without the elements equal to the one before them. -/
def dedupRuns : List α → List α
  | [] => []
  | [x] => [x]
  | x :: y :: l => if x = y then dedupRuns (y :: l) else x :: dedupRuns (y :: l)

@[simp] theorem mem_dedupRuns {x : α} {l : List α} : x ∈ dedupRuns l ↔ x ∈ l := by
  induction l using dedupRuns.induct with
  | case1 => rfl
  | case2 y => rfl
  | case3 y l ih => rw [dedupRuns, if_pos rfl, ih]; simp
  | case4 y z l hne ih => rw [dedupRuns, if_neg hne, List.mem_cons, ih, ← List.mem_cons]

/-- A sorted list without repeated neighbours is strictly sorted. -/
theorem dedupRuns_sortedLT {l : List α} (hl : l.Pairwise (· ≤ ·)) :
    (dedupRuns l).Pairwise (· < ·) := by
  induction l using dedupRuns.induct with
  | case1 => exact .nil
  | case2 y => exact List.pairwise_singleton _ _
  | case3 y l ih => rw [dedupRuns, if_pos rfl]; exact ih hl.of_cons
  | case4 y z l hne ih =>
    rw [dedupRuns, if_neg hne, List.pairwise_cons]
    refine ⟨fun w hw => ?_, ih hl.of_cons⟩
    have hyz : y < z := lt_of_le_of_ne (List.rel_of_pairwise_cons hl List.mem_cons_self) hne
    rcases List.mem_cons.1 (mem_dedupRuns.1 hw) with rfl | hw'
    · exact hyz
    · exact hyz.trans_le (List.rel_of_pairwise_cons hl.of_cons hw')

end Search
