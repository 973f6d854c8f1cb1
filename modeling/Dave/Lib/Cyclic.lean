import Mathlib.Data.List.Basic
import Mathlib.Dynamics.PeriodicPts.Defs

/-!
# Cyclic lists

A list whose elements lead one to the next, and the last of them to the first again.
-/

namespace Cyclic

open List

open Function (update update_self update_of_ne)

variable {α : Type*} {next next' : α → α} {l l' : List α} {a x y z : α}

/-- Each element leads to the one after it, and the last one to `z`. -/
def Links (next : α → α) : List α → α → Prop
  | [], _ => True
  | a :: l, z => next a = l.headD z ∧ Links next l z

theorem links_append : Links next (l ++ l') z ↔ Links next l (l'.headD z) ∧ Links next l' z := by
  induction l with
  | nil => simp [Links]
  | cons a l ih =>
    rw [cons_append, Links, Links, ih, and_assoc]
    cases l <;> rfl

theorem Links.congr (h : Links next l z) (hnext : ∀ x ∈ l, next' x = next x) : Links next' l z := by
  induction l with
  | nil => trivial
  | cons a l ih =>
    refine ⟨(hnext a mem_cons_self).trans h.1, ih h.2 fun x hx => ?_⟩
    exact hnext x (mem_cons_of_mem a hx)

section Update

variable [DecidableEq α] {r : List α}

/-- An element is put behind `x`. -/
theorem Links.insert (l : List α) (h : Links next (l ++ x :: r) z) (hnodup : (l ++ x :: r).Nodup)
    (ha : a ∉ l ++ x :: r) :
    Links (update (update next a (next x)) x a) (l ++ x :: a :: r) z := by
  obtain ⟨hl, hx, hr⟩ := links_append.mp h
  have hmem := (nodup_cons.mp (nodup_middle.mp hnodup)).1
  have hframe (y : α) (hy : y ∈ l ++ r) : update (update next a (next x)) x a y = next y := by
    rw [update_of_ne (ne_of_mem_of_not_mem hy hmem), update_of_ne]
    rintro rfl
    exact ha (mem_append.mpr ((mem_append.mp hy).imp_right (mem_cons_of_mem x)))
  refine links_append.mpr ⟨hl.congr fun y hy => hframe y (mem_append_left r hy),
    update_self .., ?_, hr.congr fun y hy => hframe y (mem_append_right l hy)⟩
  rw [update_of_ne (ne_of_mem_of_not_mem (by simp) ha).symm, update_self, hx]

/-- The element behind `x` is taken out. -/
theorem Links.remove (l : List α) (h : Links next (l ++ x :: a :: r) z)
    (hnodup : (l ++ x :: a :: r).Nodup) : Links (update next x (next a)) (l ++ x :: r) z := by
  obtain ⟨hl, -, ha, hr⟩ := links_append.mp h
  have hmem := (nodup_cons.mp (nodup_middle.mp hnodup)).1
  have hframe (y : α) (hy : y ∈ l ++ a :: r) : update next x (next a) y = next y :=
    update_of_ne (ne_of_mem_of_not_mem hy hmem) ..
  refine links_append.mpr ⟨hl.congr fun y hy => hframe y (mem_append_left _ hy),
    (update_self ..).trans ha, hr.congr fun y hy => hframe y ?_⟩
  exact mem_append_right l (mem_cons_of_mem a hy)

end Update

/-- The first element leads to every element. -/
theorem Links.exists_iterate_head (h : Links next (a :: l) z) (hy : y ∈ a :: l) :
    ∃ k, next^[k] a = y := by
  induction l generalizing a with
  | nil =>
    obtain rfl := mem_singleton.mp hy
    exact ⟨0, rfl⟩
  | cons b l ih =>
    obtain rfl | hy := mem_cons.mp hy
    · exact ⟨0, rfl⟩
    · obtain ⟨k, hk⟩ := ih h.2 hy
      refine ⟨k + 1, ?_⟩
      rw [Function.iterate_succ_apply, h.1]
      exact hk

/-- Every element leads to what the last one leads to. -/
theorem Links.exists_iterate_last (h : Links next l z) (hx : x ∈ l) : ∃ k, next^[k] x = z := by
  induction l generalizing x with
  | nil => exact absurd hx not_mem_nil
  | cons a l ih =>
    obtain rfl | hx := mem_cons.mp hx
    · cases l with
      | nil => exact ⟨1, h.1⟩
      | cons b l =>
        obtain ⟨k, hk⟩ := ih h.2 mem_cons_self
        refine ⟨k + 1, ?_⟩
        rw [Function.iterate_succ_apply, h.1]
        exact hk
    · exact ih h.2 hx

/-- In a cycle, every element is reached from every other. -/
theorem Links.exists_iterate (h : Links next (a :: l) a) (hx : x ∈ a :: l) (hy : y ∈ a :: l) :
    ∃ k, next^[k] x = y := by
  obtain ⟨i, hi⟩ := h.exists_iterate_last hx
  obtain ⟨j, hj⟩ := h.exists_iterate_head hy
  exact ⟨j + i, by rw [Function.iterate_add_apply, hi, hj]⟩

theorem Links.next_mem (h : Links next l z) (hx : x ∈ l) : next x = z ∨ next x ∈ l := by
  induction l with
  | nil => exact absurd hx not_mem_nil
  | cons a l ih =>
    obtain rfl | hx := mem_cons.mp hx
    · cases l with
      | nil => exact .inl h.1
      | cons b l => exact .inr (h.1 ▸ mem_cons_of_mem _ mem_cons_self)
    · exact (ih h.2 hx).imp_right (mem_cons_of_mem a)

/-- The elements of a cycle are not left. -/
theorem Links.iterate_mem (h : Links next (a :: l) a) (hx : x ∈ a :: l) (k : ℕ) :
    next^[k] x ∈ a :: l := by
  induction k with
  | zero => exact hx
  | succ k ih =>
    rw [Function.iterate_succ_apply']
    obtain heq | hmem := h.next_mem ih
    · exact heq ▸ mem_cons_self
    · exact hmem

/-- A walk that ends where it began has met every element. -/
theorem Links.exists_round (h : Links next (a :: l) a) (hx : x ∈ a :: l) {k : ℕ} (hk : 0 < k)
    (hround : next^[k] x = x) (hy : y ∈ a :: l) : ∃ j, 0 < j ∧ j ≤ k ∧ next^[j] x = y := by
  obtain ⟨i, rfl⟩ := h.exists_iterate hx hy
  have hmod := Function.IsPeriodicPt.iterate_mod_apply (f := next) (x := x) (n := k) hround i
  by_cases hzero : i % k = 0
  · rw [hzero, Function.iterate_zero_apply] at hmod
    exact ⟨k, hk, le_refl k, hround.trans hmod⟩
  · exact ⟨i % k, Nat.pos_of_ne_zero hzero, (Nat.mod_lt i hk).le, hmod⟩

end Cyclic
