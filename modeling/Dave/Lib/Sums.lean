import Mathlib.Algebra.BigOperators.Group.Finset.Piecewise
import Mathlib.Algebra.Order.BigOperators.Group.Finset
import Mathlib.Algebra.Order.BigOperators.Group.Multiset
import Mathlib.Data.Fintype.Basic
import Mathlib.Tactic.Abel

/-!
# Sums of the entries of a table

How the sum over all entries of a table changes when one entry is replaced. The statements are
equations with the old and the new summand on either side, so that they hold without subtraction.
-/

namespace Dave

open Finset

variable {ι α N : Type*} [Fintype ι] [DecidableEq ι] [AddCommMonoid N]

/-- Two tables that agree except at `i`. -/
theorem sum_add_of_eq_of_ne {f g : ι → N} (i : ι) (h : ∀ j, j ≠ i → g j = f j) :
    ∑ j, g j + f i = ∑ j, f j + g i := by
  rw [← add_sum_erase univ g (mem_univ i), ← add_sum_erase univ f (mem_univ i),
    sum_congr rfl fun j hj => h j (ne_of_mem_erase hj)]
  abel

/-- A table with one entry replaced. -/
theorem sum_update_add (w : ι → α → N) (t : ι → α) (i : ι) (a : α) :
    ∑ j, w j (Function.update t i a j) + w i (t i) = ∑ j, w j (t j) + w i a := by
  have h := sum_add_of_eq_of_ne (f := fun j => w j (t j))
    (g := fun j => w j (Function.update t i a j)) i fun j hj => by
      rw [Function.update_of_ne hj]
  rwa [Function.update_self] at h

/-! ### References to objects -/

section Refs

variable {P : Type*} [DecidableEq P]

/-- How many references the process `p` has, when it has one for each object it has locked, and one
for the object it waits for. -/
def refsOf (lock : ι → Option P) (waits : Option ι) (p : P) : ℕ :=
  (∑ i, if lock i = some p then 1 else 0) + if waits = none then 0 else 1

omit [DecidableEq ι] in
theorem refsOf_congr {lock lock' : ι → Option P} {waits : Option ι} {p : P}
    (h : ∀ i, lock' i = some p ↔ lock i = some p) : refsOf lock' waits p = refsOf lock waits p := by
  rw [refsOf, refsOf]
  congr 1
  exact sum_congr rfl fun i _ => if_congr (h i) rfl rfl

/-- The references by object and those by process are the same. -/
theorem sum_refs [Fintype P] (lock : ι → Option P) (waits : P → Option ι) :
    ∑ i, ((if lock i = none then 0 else 1) + ∑ p, if waits p = some i then 1 else 0) =
      ∑ p, refsOf lock (waits p) p := by
  have hlock (i : ι) :
      (if lock i = none then 0 else 1) = ∑ p, if lock i = some p then 1 else 0 := by
    cases lock i with
    | none => simp
    | some q => simp [sum_ite_eq]
  have hwaits (p : P) : (if waits p = none then 0 else 1) =
      ∑ i, if waits p = some i then 1 else 0 := by
    cases waits p with
    | none => simp
    | some j => simp [sum_ite_eq]
  calc ∑ i, ((if lock i = none then 0 else 1) + ∑ p, if waits p = some i then 1 else 0)
      = ∑ i, ∑ p, (if lock i = some p then 1 else 0) + ∑ i, ∑ p,
        if waits p = some i then 1 else 0 := by
        rw [sum_add_distrib]
        congr 1
        exact sum_congr rfl fun i _ => hlock i
    _ = ∑ p, ∑ i, (if lock i = some p then 1 else 0) + ∑ p, ∑ i,
      if waits p = some i then 1 else 0 := by
        congr 1
        · exact sum_comm
        · exact sum_comm
    _ = ∑ p, refsOf lock (waits p) p := by
        rw [← sum_add_distrib]
        exact sum_congr rfl fun p _ => by rw [refsOf, hwaits]

omit [DecidableEq ι] in
/-- If no process has more than two references and `p` has at most one, then together they have
fewer than two for each of the processes that have some and `p`. -/
theorem sum_lt_two_mul_card {f : ι → ℕ} {p : ι} (h : ∀ q, f q ≤ 2) (hp : f p ≤ 1)
    [DecidablePred fun q => q = p ∨ 0 < f q] :
    ∑ q, f q < 2 * (univ.filter fun q => q = p ∨ 0 < f q).card := by
  calc ∑ q, f q < ∑ q, if q = p ∨ 0 < f q then 2 else 0 := by
        refine sum_lt_sum (fun q _ => ?_) ⟨p, mem_univ p, ?_⟩
        · split_ifs with hq
          · exact h q
          · omega
        · rw [if_pos (.inl rfl)]
          omega
    _ = 2 * (univ.filter fun q => q = p ∨ 0 < f q).card := by
        rw [sum_ite, sum_const_nat fun _ _ => rfl, sum_const_zero, add_zero, mul_comm]

omit [DecidableEq ι] in
/-- If there are fewer references and marked objects than objects, one is free. -/
theorem exists_free {c : ι → ℕ} {d : ι → Prop} [DecidablePred d]
    (h : ∑ i, c i + (univ.filter fun i => d i).card < Fintype.card ι) :
    ∃ i, c i = 0 ∧ ¬ d i := by
  by_contra hnone
  have hone : ∀ i, 1 ≤ c i + if d i then 1 else 0 := by
    intro i
    by_cases hd : d i
    · rw [if_pos hd]
      omega
    · have hc : c i ≠ 0 := fun hc => hnone ⟨i, hc, hd⟩
      omega
  have hsum : Fintype.card ι ≤ ∑ i, (c i + if d i then 1 else 0) := by
    rw [← card_univ, card_eq_sum_ones]
    exact sum_le_sum fun i _ => hone i
  rw [sum_add_distrib, ← card_filter] at hsum
  omega

end Refs

section Multiset

variable {t : ι → Multiset α} {a : α}

omit [DecidableEq ι] in
/-- What is in one entry is in the sum. -/
theorem mem_sum_of_mem (i : ι) (h : a ∈ t i) : a ∈ ∑ j, t j :=
  Multiset.mem_sum.mpr ⟨i, mem_univ i, h⟩

omit [DecidableEq ι] in
/-- An entry of a table whose sum has no duplicates has none. -/
theorem nodup_of_nodup_sum (h : (∑ j, t j).Nodup) (i : ι) : (t i).Nodup :=
  Multiset.nodup_of_le (single_le_sum (fun _ _ => Multiset.zero_le _) (mem_univ i)) h

/-- In a table whose sum has no duplicates, nothing is in two entries. -/
theorem eq_of_nodup_sum (h : (∑ j, t j).Nodup) {i j : ι} (hi : a ∈ t i) (hj : a ∈ t j) : i = j := by
  by_contra hne
  have hle : t i + t j ≤ ∑ j, t j := by
    rw [← sum_pair hne]
    exact sum_le_sum_of_subset (subset_univ _)
  have hdisj := (Multiset.nodup_add.mp (Multiset.nodup_of_le hle h)).2.2
  exact Multiset.disjoint_left.mp hdisj hi hj

end Multiset

end Dave
