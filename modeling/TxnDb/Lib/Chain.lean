import Mathlib.Data.List.Basic
import Mathlib.Order.Lattice

/-!
# Version chains

A multi-version store keeps, for each key, the chain of its versions: values
(or tombstones) tagged with the timestamps at which they were committed. A
chain in ascending order of timestamps (`Ascending`) answers two questions at
any timestamp `r`: which value is `visible` at `r` (that of the newest version
at or below `r`), and whether the key is `Newer` than `r` (it has a version
above `r`).

Pruning a chain at a watermark `w` (`prune`) drops the versions no reader at or
above `w` can observe. A pruned chain is related to the `full` history of its
key by `Pruned w`: it is a suffix of it, and what was dropped is either hidden
behind a version at or below `w`, or ends with a tombstone at or below `w`. At
or above `w`, both questions have the same answer on the two chains
(`Pruned.visible_eq`, `Pruned.newer_iff`), however many prunes and later
versions there were (`Pruned.prune`, `Pruned.push`).
-/

namespace Mvcc

/-- A version of a key: its commit timestamp, and its value, `none` for a tombstone. -/
structure Version (T V : Type*) where
  commitTs : T
  value : Option V
  deriving DecidableEq, Repr

variable {T V : Type*} [LinearOrder T] {r w w' : T} {v : Version T V}
  {c full chain : List (Version T V)}

/-- The versions are in strictly ascending order of commit timestamps. -/
def Ascending (c : List (Version T V)) : Prop := c.Pairwise (·.commitTs < ·.commitTs)

/-- The versions are in ascending order of commit timestamps, some of which may be equal. -/
def Sorted (c : List (Version T V)) : Prop := c.Pairwise (·.commitTs ≤ ·.commitTs)

/-- The versions at or below `r`. -/
def upTo (c : List (Version T V)) (r : T) : List (Version T V) := c.filter (·.commitTs ≤ r)

/-- The value visible at `r`: that of the last version at or below `r`. -/
def visible (c : List (Version T V)) (r : T) : Option V := (upTo c r).getLast?.bind (·.value)

/-- There is a version above `r`. -/
def Newer (c : List (Version T V)) (r : T) : Prop := ∃ v ∈ c, r < v.commitTs

@[simp] theorem upTo_nil : upTo ([] : List (Version T V)) r = [] := rfl

@[simp] theorem visible_nil : visible ([] : List (Version T V)) r = none := rfl

@[simp] theorem not_newer_nil : ¬Newer ([] : List (Version T V)) r := by simp [Newer]

@[simp] theorem mem_upTo : v ∈ upTo c r ↔ v ∈ c ∧ v.commitTs ≤ r := by simp [upTo]

theorem upTo_append (c d : List (Version T V)) (r : T) : upTo (c ++ d) r = upTo c r ++ upTo d r :=
  List.filter_append ..

theorem upTo_eq_self (h : ∀ v ∈ c, v.commitTs ≤ r) : upTo c r = c :=
  List.filter_eq_self.2 fun v hv => decide_eq_true (h v hv)

theorem upTo_eq_nil (h : ∀ v ∈ c, r < v.commitTs) : upTo c r = [] :=
  List.filter_eq_nil_iff.2 fun v hv => by simpa using h v hv

theorem not_newer : ¬Newer c r ↔ ∀ v ∈ c, v.commitTs ≤ r := by simp [Newer]

theorem newer_append {d : List (Version T V)} : Newer (c ++ d) r ↔ Newer c r ∨ Newer d r := by
  simp only [Newer, List.mem_append, or_and_right, exists_or]

theorem Ascending.sorted (hc : Ascending c) : Sorted c := hc.imp le_of_lt

theorem Ascending.append_singleton (hc : Ascending c) (h : ∀ u ∈ c, u.commitTs < v.commitTs) :
    Ascending (c ++ [v]) :=
  List.pairwise_append.2 ⟨hc, List.pairwise_singleton _ _, fun u hu x hx => by
    rw [List.mem_singleton.1 hx]; exact h u hu⟩

/-- On an ascending chain, the last version is the newest one. -/
theorem Ascending.le_getLast (hc : Ascending c) {u : Version T V} (hu : c.getLast? = some u)
    (hv : v ∈ c) : v.commitTs ≤ u.commitTs := by
  obtain ⟨d, rfl⟩ := List.getLast?_eq_some_iff.1 hu
  rcases List.mem_append.1 hv with hv | hv
  · exact (List.pairwise_append.1 hc).2.2 v hv u (List.mem_singleton_self u) |>.le
  · rw [List.mem_singleton.1 hv]

/-- On an ascending chain, being newer than `r` is read off the last version. -/
theorem Ascending.newer_iff (hc : Ascending c) :
    Newer c r ↔ ∃ u, c.getLast? = some u ∧ r < u.commitTs := by
  constructor
  · rintro ⟨v, hv, hr⟩
    obtain ⟨u, hu⟩ := Option.isSome_iff_exists.1 (List.getLast?_isSome.2 (List.ne_nil_of_mem hv))
    exact ⟨u, hu, hr.trans_le (hc.le_getLast hu hv)⟩
  · rintro ⟨u, hu, hr⟩
    exact ⟨u, List.mem_of_getLast? hu, hr⟩

theorem Ascending.upTo (hc : Ascending c) (r : T) : Ascending (upTo c r) :=
  List.Pairwise.filter _ hc

theorem Ascending.suffix {d : List (Version T V)} (hc : Ascending (d ++ c)) : Ascending c :=
  (List.pairwise_append.1 hc).2.1

/-- A last version at or below `r` is what is seen at `r`. -/
theorem visible_append_of_le (h : v.commitTs ≤ r) : visible (c ++ [v]) r = v.value := by
  rw [visible, upTo_append, upTo_eq_self (c := [v]) (by simpa using h)]
  simp

/-- On an ascending chain, the value of the newest version at or below `r` is seen at `r`. -/
theorem Ascending.visible_eq (hc : Ascending c) (hv : v ∈ c) (hr : v.commitTs ≤ r)
    (hmax : ∀ u ∈ c, u.commitTs ≤ r → u.commitTs ≤ v.commitTs) : visible c r = v.value := by
  obtain ⟨a, b, rfl⟩ := List.append_of_mem hv
  have hb : ∀ u ∈ b, r < u.commitTs := fun u hu => by
    by_contra hle
    have hlt := List.rel_of_pairwise_cons (List.pairwise_append.1 hc).2.1 hu
    exact absurd (hmax u (by simp [hu]) (not_lt.1 hle)) (not_le.2 hlt)
  rw [List.append_cons, visible, upTo_append, upTo_eq_nil hb, List.append_nil]
  exact visible_append_of_le hr

/-- What is seen at `r` is the value of a newest version at or below `r`, if there is one. -/
theorem Ascending.visible_cases (hc : Ascending c) (r : T) :
    (∃ v ∈ c, v.commitTs ≤ r ∧ (∀ u ∈ c, u.commitTs ≤ r → u.commitTs ≤ v.commitTs) ∧
      visible c r = v.value) ∨ ((∀ u ∈ c, r < u.commitTs) ∧ visible c r = none) := by
  cases h : (Mvcc.upTo c r).getLast? with
  | none =>
    rw [List.getLast?_eq_none_iff] at h
    refine .inr ⟨fun u hu => ?_, by rw [visible, h]; rfl⟩
    by_contra hle
    exact List.not_mem_nil (h ▸ mem_upTo.2 ⟨hu, not_lt.1 hle⟩)
  | some v =>
    obtain ⟨hv, hr⟩ := mem_upTo.1 (List.mem_of_getLast? h)
    exact .inl ⟨v, hv, hr, fun u hu hur => (hc.upTo r).le_getLast h (mem_upTo.2 ⟨hu, hur⟩),
      by rw [visible, h]; rfl⟩

/-! ## Pruning -/

/-- The chain without the versions older than the newest one at or below `w`,
    and empty if only a tombstone at or below `w` is left. -/
def prune (w : T) (c : List (Version T V)) : List (Version T V) :=
  match c.drop ((upTo c w).length - 1) with
  | [v] => if v.commitTs ≤ w ∧ v.value = none then [] else [v]
  | kept => kept

/-- The chain without the versions older than the newest one at or below `w`. -/
def cut (w : T) (c : List (Version T V)) : List (Version T V) := c.drop ((upTo c w).length - 1)

/-- `chain` is what is left of the history `full` after prunes at or below the
    watermark `w`: a suffix, the dropped part being hidden at or above `w`. -/
def Pruned (w : T) (full chain : List (Version T V)) : Prop :=
  ∃ dropped, full = dropped ++ chain ∧
    (dropped = [] ∨ (∃ v, chain.head? = some v ∧ v.commitTs ≤ w) ∨
      ∃ v, dropped.getLast? = some v ∧ v.value = none ∧ v.commitTs ≤ w)

theorem Pruned.refl (w : T) (full : List (Version T V)) : Pruned w full full :=
  ⟨[], rfl, .inl rfl⟩

theorem Pruned.mono (h : Pruned w full chain) (hw : w ≤ w') : Pruned w' full chain := by
  obtain ⟨d, hd, hd' | ⟨v, hv, hvw⟩ | ⟨v, hv, hn, hvw⟩⟩ := h
  · exact ⟨d, hd, .inl hd'⟩
  · exact ⟨d, hd, .inr (.inl ⟨v, hv, hvw.trans hw⟩)⟩
  · exact ⟨d, hd, .inr (.inr ⟨v, hv, hn, hvw.trans hw⟩)⟩

theorem Pruned.ascending (h : Pruned w full chain) (hf : Ascending full) : Ascending chain := by
  obtain ⟨d, rfl, _⟩ := h
  exact hf.suffix

theorem Pruned.mem (h : Pruned w full chain) (hv : v ∈ chain) : v ∈ full := by
  obtain ⟨d, rfl, _⟩ := h
  exact List.mem_append_right _ hv

/-- The dropped versions are at or below the watermark. -/
theorem Pruned.dropped_le (hf : Ascending full) {d : List (Version T V)} (hd : full = d ++ chain)
    (hcases : d = [] ∨ (∃ v, chain.head? = some v ∧ v.commitTs ≤ w) ∨
      ∃ v, d.getLast? = some v ∧ v.value = none ∧ v.commitTs ≤ w) :
    ∀ u ∈ d, u.commitTs ≤ w := by
  subst hd
  obtain ⟨hasc, _, hlt⟩ := List.pairwise_append.1 hf
  rcases hcases with rfl | ⟨v, hv, hvw⟩ | ⟨v, hv, _, hvw⟩
  · simp
  · exact fun u hu => (hlt u hu v (List.mem_of_mem_head? hv)).le.trans hvw
  · exact fun u hu => (Ascending.le_getLast hasc hv hu).trans hvw

/-- At or above the watermark, a pruned chain shows what the history shows. -/
theorem Pruned.visible_eq (h : Pruned w full chain) (hf : Ascending full) (hr : w ≤ r) :
    visible chain r = visible full r := by
  obtain ⟨d, rfl, hcases⟩ := h
  have hdr : upTo d r = d :=
    upTo_eq_self fun u hu => (Pruned.dropped_le hf rfl hcases u hu).trans hr
  rw [visible, visible, upTo_append, hdr]
  rcases hcases with rfl | ⟨v, hv, hvw⟩ | ⟨v, hv, hn, _⟩
  · rw [List.nil_append]
  · -- the head of the chain is at or below `r`: the last such version is in the chain
    have hne : upTo chain r ≠ [] :=
      List.ne_nil_of_mem (mem_upTo.2 ⟨List.mem_of_mem_head? hv, hvw.trans hr⟩)
    rw [List.getLast?_append_of_ne_nil _ hne]
  · -- otherwise, what was dropped last is a tombstone, which reads as no version
    rcases eq_or_ne (upTo chain r) [] with he | hne
    · rw [he, List.append_nil, hv]
      exact hn.symm
    · rw [List.getLast?_append_of_ne_nil _ hne]

/-- At or above the watermark, a pruned chain is as new as the history. -/
theorem Pruned.newer_iff (h : Pruned w full chain) (hf : Ascending full) (hr : w ≤ r) :
    Newer chain r ↔ Newer full r := by
  obtain ⟨d, rfl, hcases⟩ := h
  rw [newer_append]
  refine ⟨.inr, fun h => h.resolve_left ?_⟩
  rw [not_newer]
  exact fun u hu => (Pruned.dropped_le hf rfl hcases u hu).trans hr

/-- A version above the history is appended to both. -/
theorem Pruned.push (h : Pruned w full chain) (v : Version T V) :
    Pruned w (full ++ [v]) (chain ++ [v]) := by
  obtain ⟨d, rfl, hcases⟩ := h
  refine ⟨d, List.append_assoc .., hcases.imp_right (.imp_left ?_)⟩
  rintro ⟨u, hu, huw⟩
  exact ⟨u, by rw [List.head?_append, hu]; rfl, huw⟩

theorem prune_eq (w : T) (c : List (Version T V)) :
    prune w c = c.drop ((upTo c w).length - 1) ∨
      (prune w c = [] ∧ ∃ v, c.drop ((upTo c w).length - 1) = [v] ∧ v.commitTs ≤ w ∧
        v.value = none) := by
  rw [prune]
  split
  · next v hv =>
    split_ifs with h
    · exact .inr ⟨rfl, v, hv, h⟩
    · exact .inl hv.symm
  · exact .inl rfl

/-- On an ascending chain, the versions at or below `w` come first. -/
theorem Sorted.upTo_head (hc : Sorted c) (w : T) : Mvcc.upTo c w <+: c := by
  induction c with
  | nil => exact List.prefix_rfl
  | cons u c ih =>
    have hle := (List.pairwise_cons.1 hc).1
    by_cases hu : u.commitTs ≤ w
    · rw [Mvcc.upTo, List.filter_cons_of_pos (by simpa using hu)]
      exact (List.prefix_cons_inj u).2 (ih hc.of_cons)
    · rw [upTo_eq_nil fun v hv => ?_]
      · exact List.nil_prefix
      · rcases List.mem_cons.1 hv with rfl | hv
        · exact not_le.1 hu
        · exact (not_le.1 hu).trans_le (hle v hv)

/-- Dropping all but the newest version at or below `w`, `w` included. -/
theorem Pruned.drop (h : Pruned w full chain) (hf : Ascending full) (w' : T) :
    Pruned (max w w') full (chain.drop ((upTo chain w').length - 1)) := by
  obtain ⟨m, hm⟩ := (h.ascending hf).sorted.upTo_head w'
  rcases List.eq_nil_or_concat (upTo chain w') with he | ⟨l, v, hl⟩
  · rw [he]
    exact h.mono (le_max_left _ _)
  · -- the newest version at or below `w'` becomes the head
    rw [List.concat_eq_append] at hl
    have hv : v.commitTs ≤ w' := (mem_upTo.1 (hl ▸ by simp : v ∈ upTo chain w')).2
    have hdrop : chain.drop ((upTo chain w').length - 1) = v :: m := by
      rw [hl] at hm
      rw [hl, ← hm]
      simp
    obtain ⟨d, rfl, _⟩ := h
    refine ⟨d ++ l, ?_, .inr (.inl ⟨v, by rw [hdrop]; rfl, hv.trans (le_max_right _ _)⟩)⟩
    rw [hdrop, ← hm, hl]
    simp

/-- A prune at any watermark keeps the relation, at the higher of the watermarks. -/
theorem Pruned.prune (h : Pruned w full chain) (hf : Ascending full) (w' : T) :
    Pruned (max w w') full (prune w' chain) := by
  rcases prune_eq w' chain with he | ⟨he, v, hv, hvw, hn⟩
  · rw [he]
    exact h.drop hf w'
  · obtain ⟨d, hd, _⟩ := h.drop hf w'
    rw [he]
    refine ⟨full, (List.append_nil _).symm, .inr (.inr ⟨v, ?_, hn, hvw.trans (le_max_right _ _)⟩)⟩
    rw [hd, hv]
    simp

/-! ## Cutting a chain, with equal timestamps or not -/

namespace Sorted

theorem cut (hc : Sorted c) (w : T) : Sorted (cut w c) := hc.sublist (List.drop_sublist _ _)

/-- What is cut is at or below `w`; and so is the head of what is left, if anything is cut. -/
theorem cut_cases (hc : Sorted c) (w : T) : ∃ d, c = d ++ Mvcc.cut w c ∧
    (∀ u ∈ d, u.commitTs ≤ w) ∧ (upTo (Mvcc.cut w c) w).length ≤ 1 ∧
    (d = [] ∨ ∃ v, (Mvcc.cut w c).head? = some v ∧ v.commitTs ≤ w) := by
  obtain ⟨m, hm⟩ := hc.upTo_head w
  rcases List.eq_nil_or_concat (upTo c w) with he | ⟨l, v, hl⟩
  · have hcut : Mvcc.cut w c = c := by rw [Mvcc.cut, he]; rfl
    exact ⟨[], by rw [hcut]; rfl, nofun, by rw [hcut, he]; exact Nat.zero_le _, .inl rfl⟩
  · -- the newest version at or below `w` is the head of what is left
    rw [List.concat_eq_append] at hl
    have hmem : ∀ u ∈ l ++ [v], u.commitTs ≤ w := fun u hu => (mem_upTo.1 (hl ▸ hu)).2
    have hcut : Mvcc.cut w c = v :: m := by
      rw [Mvcc.cut, hl]
      rw [hl] at hm
      rw [← hm]
      simp
    have hd : c = l ++ Mvcc.cut w c := by rw [hcut, ← hm, hl]; simp
    refine ⟨l, hd, fun u hu => hmem u (List.mem_append_left _ hu), ?_,
      .inr ⟨v, by rw [hcut]; rfl, hmem v (by simp)⟩⟩
    have hlen := congrArg List.length hl
    rw [hd, upTo_append, upTo_eq_self fun u hu => hmem u (List.mem_append_left _ hu),
      List.length_append, List.length_append] at hlen
    exact (Nat.add_left_cancel hlen).le

/-- At or above `w`, what is left shows what the chain shows. -/
theorem visible_cut (hc : Sorted c) (hr : w ≤ r) : visible (Mvcc.cut w c) r = visible c r := by
  obtain ⟨d, hd, hle, -, hcases⟩ := hc.cut_cases w
  have hup : upTo c r = d ++ upTo (Mvcc.cut w c) r := by
    conv_lhs => rw [hd, upTo_append, upTo_eq_self fun u hu => (hle u hu).trans hr]
  rw [visible, visible, hup]
  rcases hcases with rfl | ⟨v, hv, hvw⟩
  · rfl
  · have hne : upTo (Mvcc.cut w c) r ≠ [] :=
      List.ne_nil_of_mem (mem_upTo.2 ⟨List.mem_of_mem_head? hv, hvw.trans hr⟩)
    rw [List.getLast?_append_of_ne_nil _ hne]

/-- The versions above `w` are left. -/
theorem filter_cut (hc : Sorted c) (w : T) :
    (Mvcc.cut w c).filter (w < ·.commitTs) = c.filter (w < ·.commitTs) := by
  obtain ⟨d, hd, hle, -⟩ := hc.cut_cases w
  have hnil : d.filter (w < ·.commitTs) = [] :=
    List.filter_eq_nil_iff.2 fun u hu => by simpa using hle u hu
  conv_rhs => rw [hd, List.filter_append, hnil, List.nil_append]

/-- What is left is not cut again. -/
theorem cut_cut (hc : Sorted c) (w : T) : Mvcc.cut w (Mvcc.cut w c) = Mvcc.cut w c := by
  obtain ⟨-, -, -, hlen, -⟩ := hc.cut_cases w
  rw [Mvcc.cut, Nat.sub_eq_zero_of_le hlen, List.drop_zero]

end Sorted

/-- A chain is left with its last version. -/
theorem getLast?_cut (w : T) (c : List (Version T V)) : (cut w c).getLast? = c.getLast? := by
  have hle : (upTo c w).length ≤ c.length := List.length_filter_le _ _
  cases c with
  | nil => rfl
  | cons u c =>
    rw [cut, List.getLast?_drop, if_neg]
    rw [List.length_cons] at hle ⊢
    omega

/-- With all versions at or below `w`, the last one is left, unless it is a tombstone. -/
theorem prune_of_forall_le (h : ∀ v ∈ c, v.commitTs ≤ w) :
    prune w c = (c.getLast?.filter (·.value.isSome)).toList := by
  rw [prune, upTo_eq_self h]
  rcases List.eq_nil_or_concat c with rfl | ⟨l, v, rfl⟩
  · rfl
  · have hv : v.commitTs ≤ w := h v (by simp)
    have hlast : (l ++ [v]).drop ((l ++ [v]).length - 1) = [v] := by simp
    rw [List.concat_eq_append, hlast, List.getLast?_append]
    cases hval : v.value <;> simp [hv, hval, Option.filter]

end Mvcc
