import Mathlib.Data.Finset.Card
import Mathlib.Logic.Function.Basic
import Mathlib.Tactic.Common

/-!
# Ledgers

An allocator marks the elements of a pool as used, and the rest of the system remembers what it was
given in a number of places. The two are in step when the used elements are exactly the ones that
some place holds, and no element is held twice. This file states that as a predicate and shows that
it survives handing an element out and taking one back.
-/

variable {ι β : Type*}

/-- The places `own` and the marks `used` agree on a pool. -/
structure Ledger (pool : Finset β) (own : ι → Option β) (used : β → Bool) : Prop where
  mem : ∀ {p b}, own p = some b → b ∈ pool
  injective : ∀ {p q b}, own p = some b → own q = some b → p = q
  used_iff : ∀ {b}, b ∈ pool → (used b = true ↔ ∃ p, own p = some b)

namespace Ledger

open Function

variable {pool : Finset β} {own : ι → Option β} {used : β → Bool}

variable {p : ι} {b : β}

theorem used_of_own (h : Ledger pool own used) (hp : own p = some b) : used b = true :=
  (h.used_iff (h.mem hp)).mpr ⟨p, hp⟩

theorem ne_of_unused (h : Ledger pool own used) (hb : used b = false) : own p ≠ some b := by
  intro hp
  rw [h.used_of_own hp] at hb
  cases hb

variable [DecidableEq ι] [DecidableEq β]

/-- A free element is handed out to an empty place. -/
theorem alloc (h : Ledger pool own used) (hb : b ∈ pool) (hused : used b = false)
    (hp : own p = none) :
    Ledger pool (update own p (some b)) (update used b true) where
  mem {q c} hq := by
    by_cases hqp : q = p
    · subst hqp
      simp only [update_self, Option.some.injEq] at hq
      exact hq ▸ hb
    · exact h.mem (by simpa [hqp] using hq)
  injective {q r c} hq hr := by
    by_cases hqp : q = p <;> by_cases hrp : r = p
    · exact hqp.trans hrp.symm
    · subst hqp
      simp only [update_self, Option.some.injEq, ne_eq, hrp, not_false_eq_true,
        update_of_ne] at hq hr
      exact absurd hr (hq ▸ h.ne_of_unused hused)
    · subst hrp
      simp only [update_self, Option.some.injEq, ne_eq, hqp, not_false_eq_true,
        update_of_ne] at hq hr
      exact absurd hq (hr ▸ h.ne_of_unused hused)
    · exact h.injective (by simpa [hqp] using hq) (by simpa [hrp] using hr)
  used_iff {c} hc := by
    by_cases hcb : c = b
    · subst hcb
      simp only [update_self, true_iff]
      exact ⟨p, update_self ..⟩
    · rw [update_of_ne hcb, h.used_iff hc]
      constructor
      · rintro ⟨q, hq⟩
        have hqp : q ≠ p := by
          rintro rfl
          simp [hp] at hq
        exact ⟨q, by rwa [update_of_ne hqp]⟩
      · rintro ⟨q, hq⟩
        by_cases hqp : q = p
        · subst hqp
          simp only [update_self, Option.some.injEq] at hq
          exact absurd hq.symm hcb
        · exact ⟨q, by rwa [update_of_ne hqp] at hq⟩

/-- An element is taken back from the place that holds it. -/
theorem free (h : Ledger pool own used) (hp : own p = some b) :
    Ledger pool (update own p none) (update used b false) where
  mem {q c} hq := by
    by_cases hqp : q = p
    · subst hqp
      simp at hq
    · exact h.mem (by simpa [hqp] using hq)
  injective {q r c} hq hr := by
    by_cases hqp : q = p
    · subst hqp
      simp at hq
    · by_cases hrp : r = p
      · subst hrp
        simp at hr
      · exact h.injective (by simpa [hqp] using hq) (by simpa [hrp] using hr)
  used_iff {c} hc := by
    by_cases hcb : c = b
    · subst hcb
      simp only [update_self, Bool.false_eq_true, false_iff, not_exists]
      intro q hq
      by_cases hqp : q = p
      · subst hqp
        simp at hq
      · exact hqp (h.injective (by simpa [hqp] using hq) hp)
    · rw [update_of_ne hcb, h.used_iff hc]
      constructor
      · rintro ⟨q, hq⟩
        have hqp : q ≠ p := by
          rintro rfl
          exact hcb (Option.some.inj (hq.symm.trans hp))
        exact ⟨q, by rwa [update_of_ne hqp]⟩
      · rintro ⟨q, hq⟩
        by_cases hqp : q = p
        · subst hqp
          simp at hq
        · exact ⟨q, by rwa [update_of_ne hqp] at hq⟩

/-! ### Counting -/

/-- The free elements of the pool. -/
def unused (pool : Finset β) (used : β → Bool) : Finset β := pool.filter fun b => used b = false

/-- Handing out an element leaves one free element fewer. -/
theorem card_unused_alloc (hb : b ∈ pool) (hused : used b = false) :
    (unused pool (update used b true)).card + 1 = (unused pool used).card := by
  have hmem : b ∈ unused pool used := Finset.mem_filter.mpr ⟨hb, hused⟩
  have heq : unused pool (update used b true) = (unused pool used).erase b := by
    ext c
    by_cases hcb : c = b
    · subst hcb
      simp [unused]
    · simp [unused, hcb]
  rw [heq, Finset.card_erase_add_one hmem]

end Ledger
