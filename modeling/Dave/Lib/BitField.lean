import Mathlib.Data.BitVec
import Mathlib.Tactic.Common

/-!
# Fields of a bit vector

A disk block is read and written through fields: a bit, a byte, a half word or a word at some
offset. Over a bit vector in little-endian order all of them are the same operation, the bits
from `o` up to `o + w`. Reading a field is `BitVec.extractLsb'`; this file adds `setField`, which
replaces those bits, and shows how reading and replacing interact: a field reads back what was
stored in it (`extractLsb'_setField_self`) and a disjoint field is untouched
(`extractLsb'_setField_of_disjoint`).
-/

namespace BitField

variable {n w w' : ℕ}

/-! ### One field -/

/-- The vector `b` with the bits from `o` up to `o + w` replaced by `v`. -/
def setField (b : BitVec n) (o : ℕ) (v : BitVec w) : BitVec n :=
  (b &&& ~~~((BitVec.allOnes w).setWidth n <<< o)) ||| (v.setWidth n <<< o)

theorem getLsbD_setField (b : BitVec n) (o : ℕ) (v : BitVec w) {i : ℕ} (hi : i < n) :
    (setField b o v).getLsbD i = if o ≤ i ∧ i < o + w then v.getLsbD (i - o) else b.getLsbD i := by
  simp only [setField, BitVec.getLsbD_or, BitVec.getLsbD_and, BitVec.getLsbD_not,
    BitVec.getLsbD_shiftLeft, BitVec.getLsbD_setWidth, BitVec.getLsbD_allOnes]
  by_cases ho : o ≤ i
  · by_cases hw : i < o + w
    · have h1 : i - o < w := by omega
      have h2 : i - o < n := by omega
      simp [hi, ho, hw, h1, h2, Nat.not_lt.mpr ho]
    · have h1 : ¬ i - o < w := by omega
      have h2 : v.getLsbD (i - o) = false := BitVec.getLsbD_of_ge v (i - o) (by omega)
      simp [hi, ho, hw, h1, h2]
  · have h1 : i < o := by omega
    simp [hi, ho, h1]

/-- A field reads back the vector stored in it. -/
theorem extractLsb'_setField_self (b : BitVec n) {o : ℕ} (v : BitVec w) (h : o + w ≤ n) :
    (setField b o v).extractLsb' o w = v := by
  apply BitVec.eq_of_getLsbD_eq
  intro i hi
  rw [BitVec.getLsbD_extractLsb', getLsbD_setField b o v (by omega)]
  simp [hi]

/-- Storing a field leaves the disjoint fields as they were. -/
theorem extractLsb'_setField_of_disjoint (b : BitVec n) {o o' : ℕ} (v : BitVec w)
    (h : o' + w' ≤ o ∨ o + w ≤ o') :
    (setField b o v).extractLsb' o' w' = b.extractLsb' o' w' := by
  apply BitVec.eq_of_getLsbD_eq
  intro i hi
  rw [BitVec.getLsbD_extractLsb', BitVec.getLsbD_extractLsb']
  by_cases hn : o' + i < n
  · rw [getLsbD_setField b o v hn]
    have hout : ¬ (o ≤ o' + i ∧ o' + i < o + w) := by omega
    simp [hout]
  · rw [BitVec.getLsbD_of_ge _ _ (by omega), BitVec.getLsbD_of_ge _ _ (by omega)]

/-- Every field of the zero vector is zero. -/
theorem extractLsb'_zero (o w : ℕ) : (0#n).extractLsb' o w = 0#w := by
  apply BitVec.eq_of_getLsbD_eq
  intro i _
  simp

/-! ### Arrays of fields -/

/-- The vector `b` with the entries of a list stored in consecutive fields of width `w`, the
first at index `k`. -/
def setArray (b : BitVec n) : ℕ → List (BitVec w) → BitVec n
  | _, [] => b
  | k, v :: vs => setArray (setField b (w * k) v) (k + 1) vs

/-- The fields of width `w` after storing an array at index `k`. -/
theorem extractLsb'_setArray (b : BitVec n) (k : ℕ) (vs : List (BitVec w))
    (hk : w * (k + vs.length) ≤ n) (j : ℕ) :
    (setArray b k vs).extractLsb' (w * j) w =
      if h : k ≤ j ∧ j < k + vs.length then vs.get ⟨j - k, by omega⟩
      else b.extractLsb' (w * j) w := by
  induction vs generalizing b k with
  | nil =>
    have hj : ¬ (k ≤ j ∧ j < k + ([] : List (BitVec w)).length) := by simp
    simp only [setArray, hj, ↓reduceDIte]
  | cons v vs ih =>
    simp only [List.length_cons] at hk
    have hk' : w * (k + 1 + vs.length) ≤ n := by
      rw [show k + 1 + vs.length = k + (vs.length + 1) by omega]
      exact hk
    rw [setArray, ih _ _ hk']
    by_cases hj : j = k
    · subst hj
      have hroom : w * j + w ≤ n := by
        calc w * j + w = w * (j + 1) := (Nat.mul_succ w j).symm
          _ ≤ w * (j + (vs.length + 1)) := Nat.mul_le_mul_left _ (by omega)
          _ ≤ n := hk
      simp [extractLsb'_setField_self b v hroom]
    · have hdisj : w * j + w ≤ w * k ∨ w * k + w ≤ w * j := by
        rcases Nat.lt_or_gt_of_ne hj with h | h
        · left
          calc w * j + w = w * (j + 1) := (Nat.mul_succ w j).symm
            _ ≤ w * k := Nat.mul_le_mul_left _ h
        · right
          calc w * k + w = w * (k + 1) := (Nat.mul_succ w k).symm
            _ ≤ w * j := Nat.mul_le_mul_left _ h
      by_cases hin : k + 1 ≤ j ∧ j < k + 1 + vs.length
      · have hin' : k ≤ j ∧ j < k + (v :: vs).length := by simp; omega
        have hidx : j - k = (j - (k + 1)) + 1 := by omega
        simp only [hin, hin', and_self, ↓reduceDIte, List.get_eq_getElem, hidx,
          List.getElem_cons_succ]
      · have hin' : ¬ (k ≤ j ∧ j < k + (v :: vs).length) := by simp; omega
        simp only [hin, hin', ↓reduceDIte]
        exact extractLsb'_setField_of_disjoint b v hdisj

/-- Storing an array leaves the fields below and above it as they were. -/
theorem extractLsb'_setArray_of_disjoint (b : BitVec n) (k : ℕ) (vs : List (BitVec w))
    {o : ℕ} (h : o + w' ≤ w * k ∨ w * (k + vs.length) ≤ o) :
    (setArray b k vs).extractLsb' o w' = b.extractLsb' o w' := by
  induction vs generalizing b k with
  | nil => rfl
  | cons v vs ih =>
    simp only [List.length_cons] at h
    have hnext : w * (k + 1 + vs.length) = w * (k + (vs.length + 1)) := by
      rw [show k + 1 + vs.length = k + (vs.length + 1) by omega]
    have hle : w * k + w ≤ w * (k + (vs.length + 1)) := by
      calc w * k + w = w * (k + 1) := (Nat.mul_succ w k).symm
        _ ≤ w * (k + (vs.length + 1)) := Nat.mul_le_mul_left _ (by omega)
    have hge : w * k ≤ w * (k + 1) := Nat.mul_le_mul_left _ (by omega)
    rw [setArray, ih _ _ (by omega)]
    exact extractLsb'_setField_of_disjoint b v (by omega)

end BitField
