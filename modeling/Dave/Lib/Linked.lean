import Mathlib.Data.List.Nodup
import Mathlib.Logic.Function.Basic

/-!
# Linked queues

A queue of cells, each of which points to the next one. Cells are appended at the end, which is
found by following the pointers, and taken from the front.
-/

namespace Linked

open Function

variable {B : Type*}

/-- The cells reached from the pointer `o` are those of the list. -/
def Chain (next : B → Option B) : Option B → List B → Prop
  | o, [] => o = none
  | o, b :: l => o = some b ∧ Chain next (next b) l

/-- The last cell, when the search begins at `b` and takes at most the given number of steps. -/
def last (next : B → Option B) : ℕ → B → B
  | 0, b => b
  | n + 1, b =>
    match next b with
    | none => b
    | some c => last next n c

variable [DecidableEq B]

/-- Append the cell `i`: its pointer is cleared, and that of the last cell is set to it. Returns the
pointer to the first cell and the pointers of the cells. -/
def append (fuel : ℕ) (head : Option B) (next : B → Option B) (i : B) : Option B × (B → Option B) :=
  let next := update next i none
  match head with
  | none => (some i, next)
  | some b => (some b, update next (last next fuel b) (some i))

variable {next : B → Option B} {o : Option B} {b i : B} {l : List B}

/-- The pointers of other cells do not matter. -/
theorem Chain.update (h : Chain next o l) (hb : b ∉ l) (x : Option B) :
    Chain (update next b x) o l := by
  induction l generalizing o with
  | nil => exact h
  | cons c l ih =>
    obtain ⟨hbc, hbl⟩ : b ≠ c ∧ b ∉ l := by simpa using hb
    refine ⟨h.1, ?_⟩
    rw [update_of_ne (Ne.symm hbc)]
    exact ih h.2 hbl

omit [DecidableEq B] in
theorem last_mem {n : ℕ} (h : Chain next (some b) (b :: l)) : last next n b ∈ b :: l := by
  induction n generalizing b l with
  | zero => exact List.mem_cons_self
  | succ n ih =>
    rw [last]
    cases l with
    | nil =>
      have hnone : next b = none := h.2
      rw [hnone]
      exact List.mem_cons_self
    | cons c l =>
      have hsome : next b = some c := h.2.1
      rw [hsome]
      exact List.mem_cons_of_mem b (ih ⟨rfl, h.2.2⟩)

/-- Setting the pointer of the last cell. -/
theorem Chain.snoc {n : ℕ} (h : Chain next (some b) (b :: l)) (hnodup : (b :: l).Nodup)
    (hn : l.length ≤ n) (hi : i ∉ b :: l) (hnone : next i = none) :
    Chain (Function.update next (last next n b) (some i)) (some b) (b :: l ++ [i]) := by
  induction l generalizing b n with
  | nil =>
    have hlast : last next n b = b := by
      have hb : next b = none := h.2
      cases n with
      | zero => rfl
      | succ n => rw [last, hb]
    have hib : i ≠ b := by simpa using hi
    rw [hlast]
    refine ⟨rfl, ?_, ?_⟩
    · rw [update_self]
    · rw [Chain, update_of_ne hib, hnone]
  | cons c l ih =>
    obtain ⟨n, rfl⟩ : ∃ k, n = k + 1 := ⟨n - 1, by simp at hn; omega⟩
    have hsome : next b = some c := h.2.1
    have hlast : last next (n + 1) b = last next n c := by rw [last, hsome]
    have hmem : last next n c ∈ c :: l := last_mem ⟨rfl, h.2.2⟩
    have hne : b ≠ last next n c := by
      rintro heq
      exact (List.nodup_cons.mp hnodup).1 (heq ▸ hmem)
    rw [hlast]
    refine ⟨rfl, ?_⟩
    rw [update_of_ne hne, hsome]
    exact ih ⟨rfl, h.2.2⟩ (List.nodup_cons.mp hnodup).2 (by simpa using hn)
      fun hmem => hi (List.mem_cons_of_mem b hmem)

/-- A cell that is not in the queue comes at its end. -/
theorem Chain.append {fuel : ℕ} (h : Chain next o l) (hnodup : l.Nodup) (hfuel : l.length ≤ fuel)
    (hi : i ∉ l) :
    Chain (append fuel o next i).2 (append fuel o next i).1 (l ++ [i]) := by
  have hclear := h.update hi none
  cases l with
  | nil =>
    obtain rfl : o = none := h
    exact ⟨rfl, update_self ..⟩
  | cons b l =>
    obtain rfl : o = some b := h.1
    have hfuel' : l.length ≤ fuel := Nat.le_of_succ_le hfuel
    exact hclear.snoc hnodup hfuel' hi (update_self ..)

end Linked
