import Mathlib.Data.List.InsertIdx
import Mathlib.Data.Option.Basic
import Mathlib.Order.Lattice
import Mathlib.Tactic.Common

/-!
# Finite maps as sorted lists

Records with different keys, in the order of the keys, are a finite map. A record is put into the
list at the first place where the key is not smaller; if a record with the same key is there, it is
replaced.
-/

namespace SortedMap

open List

variable {α κ : Type*} [LinearOrder κ] (key : α → κ)

/-- The keys are strictly increasing. -/
def Sorted (l : List α) : Prop := l.Pairwise fun a b => key a < key b

/-- The first place where the key is not smaller than `k`. -/
def pos (k : κ) (l : List α) : ℕ := l.findIdx fun a => decide (k ≤ key a)

/-- Whether there is a record with the key `k` at its place. -/
def Hit (k : κ) (l : List α) : Prop := (l[pos key k l]?).map key = some k

instance (k : κ) (l : List α) : Decidable (Hit key k l) :=
  inferInstanceAs (Decidable (_ = _))

/-- Put a record into the list. -/
def put (a : α) (l : List α) : List α :=
  if Hit key (key a) l then l.set (pos key (key a) l) a else l.insertIdx (pos key (key a) l) a

/-- Remove the record with the key `k`. -/
def del (k : κ) (l : List α) : List α := if Hit key k l then l.eraseIdx (pos key k l) else l

variable {key} {k : κ} {l lo hi : List α} {a x : α}

/-- The records below and above a key. -/
structure Split (key : α → κ) (k : κ) (l lo hi : List α) : Prop where
  below : ∀ x ∈ lo, key x < k
  above : ∀ x ∈ hi, k < key x
  eq : l = lo ++ hi ∨ ∃ x, key x = k ∧ l = lo ++ x :: hi

theorem exists_split (h : Sorted key l) (k : κ) : ∃ lo hi, Split key k l lo hi := by
  induction l with
  | nil => exact ⟨[], [], by simp, by simp, .inl rfl⟩
  | cons x l ih =>
    obtain ⟨hx, hl⟩ := pairwise_cons.mp h
    rcases lt_trichotomy (key x) k with hlt | heq | hgt
    · obtain ⟨lo, hi, hs⟩ := ih hl
      refine ⟨x :: lo, hi, fun y hy => ?_, hs.above, ?_⟩
      · rcases mem_cons.mp hy with rfl | hy
        · exact hlt
        · exact hs.below y hy
      · rcases hs.eq with heq | ⟨z, hz, heq⟩
        · exact .inl (congrArg (x :: ·) heq)
        · exact .inr ⟨z, hz, congrArg (x :: ·) heq⟩
    · exact ⟨[], l, by simp, fun y hy => heq ▸ hx y hy, .inr ⟨x, heq, rfl⟩⟩
    · refine ⟨[], x :: l, by simp, fun y hy => ?_, .inl rfl⟩
      rcases mem_cons.mp hy with rfl | hy
      · exact hgt
      · exact hgt.trans (hx y hy)

namespace Split

theorem pos_eq (h : Split key k l lo hi) : pos key k l = lo.length := by
  have hlo : lo.findIdx (fun a => decide (k ≤ key a)) = lo.length :=
    findIdx_eq_length.mpr fun x hx => decide_eq_false (not_le.mpr (h.below x hx))
  have hfirst (hi' : List α) (hhi : ∀ x ∈ hi'.head?, k ≤ key x) :
      pos key k (lo ++ hi') = lo.length := by
    rw [pos, findIdx_append, hlo, if_neg (Nat.lt_irrefl _)]
    cases hi' with
    | nil => simp
    | cons y hi' => simp [findIdx_cons, hhi y rfl]
  rcases h.eq with rfl | ⟨x, hx, rfl⟩
  · refine hfirst hi fun x hx => (h.above x (mem_of_mem_head? hx)).le
  · refine hfirst (x :: hi) fun y hy => ?_
    obtain rfl := Option.some.inj hy
    exact hx.ge

theorem hit_of_eq (h : Split key k l lo hi) (hx : key x = k) (hl : l = lo ++ x :: hi) :
    Hit key k l := by
  rw [Hit, h.pos_eq, hl, getElem?_append_right (Nat.le_refl _), Nat.sub_self, getElem?_cons_zero,
    Option.map_some, hx]

theorem not_hit_of_eq (h : Split key k l lo hi) (hl : l = lo ++ hi) : ¬ Hit key k l := by
  rw [Hit, h.pos_eq, hl, getElem?_append_right (Nat.le_refl _), Nat.sub_self]
  cases hi with
  | nil => simp
  | cons y hi => simpa using (h.above y mem_cons_self).ne'

theorem put_eq (h : Split key (key a) l lo hi) : put key a l = lo ++ a :: hi := by
  rcases h.eq with hl | ⟨x, hx, hl⟩
  · rw [put, if_neg (h.not_hit_of_eq hl), h.pos_eq, hl]
    clear h hl
    induction lo with
    | nil => rfl
    | cons y lo ih => exact congrArg (y :: ·) ih
  · rw [put, if_pos (h.hit_of_eq hx hl), h.pos_eq, hl, set_append_right _ _ (Nat.le_refl _),
      Nat.sub_self, set_cons_zero]

theorem del_eq (h : Split key k l lo hi) : del key k l = lo ++ hi := by
  rcases h.eq with hl | ⟨x, hx, hl⟩
  · rw [del, if_neg (h.not_hit_of_eq hl), hl]
  · rw [del, if_pos (h.hit_of_eq hx hl), h.pos_eq, hl, eraseIdx_append_of_length_le
      (Nat.le_refl _),
      Nat.sub_self, eraseIdx_cons_zero]

/-- The records with other keys. -/
theorem mem_iff (h : Split key k l lo hi) : x ∈ lo ++ hi ↔ x ∈ l ∧ key x ≠ k := by
  have hne (hx : x ∈ lo ++ hi) : key x ≠ k := by
    rcases mem_append.mp hx with hx | hx
    · exact (h.below x hx).ne
    · exact (h.above x hx).ne'
  rcases h.eq with rfl | ⟨y, hy, rfl⟩
  · exact ⟨fun hx => ⟨hx, hne hx⟩, fun hx => hx.1⟩
  · refine ⟨fun hx => ⟨?_, hne hx⟩, fun ⟨hx, hxk⟩ => ?_⟩
    · rcases mem_append.mp hx with hx | hx
      · exact mem_append_left _ hx
      · exact mem_append_right _ (mem_cons_of_mem _ hx)
    · rcases mem_append.mp hx with hx | hx
      · exact mem_append_left _ hx
      · rcases mem_cons.mp hx with rfl | hx
        · exact absurd hy hxk
        · exact mem_append_right _ hx

theorem sorted (h : Split key k l lo hi) (hl : Sorted key l) : Sorted key (lo ++ hi) := by
  refine hl.sublist ?_
  rcases h.eq with rfl | ⟨y, hy, rfl⟩
  · exact List.Sublist.refl _
  · exact (List.Sublist.refl lo).append (sublist_cons_self y hi)

end Split

namespace Sorted

variable (h : Sorted key l)

include h

theorem put (a : α) : Sorted key (put key a l) := by
  obtain ⟨lo, hi, hs⟩ := exists_split h (key a)
  obtain ⟨hlo, hhi, hcross⟩ := pairwise_append.mp (hs.sorted h)
  rw [hs.put_eq]
  refine pairwise_append.mpr ⟨hlo, pairwise_cons.mpr ⟨hs.above, hhi⟩, fun x hx y hy => ?_⟩
  rcases mem_cons.mp hy with rfl | hy
  · exact hs.below x hx
  · exact hcross x hx y hy

theorem del (k : κ) : Sorted key (del key k l) := by
  obtain ⟨lo, hi, hs⟩ := exists_split h k
  rw [hs.del_eq]
  exact hs.sorted h

/-- The record is bound to its key, and all others are kept. -/
theorem mem_put : x ∈ SortedMap.put key a l ↔ x = a ∨ x ∈ l ∧ key x ≠ key a := by
  obtain ⟨lo, hi, hs⟩ := exists_split h (key a)
  rw [hs.put_eq, ← hs.mem_iff]
  simp only [mem_append, mem_cons]
  tauto

theorem mem_del : x ∈ SortedMap.del key k l ↔ x ∈ l ∧ key x ≠ k := by
  obtain ⟨lo, hi, hs⟩ := exists_split h k
  rw [hs.del_eq, hs.mem_iff]

/-- The place of a key separates the smaller keys from the others. -/
theorem lt_pos_iff {j : ℕ} (hj : j < l.length) : key l[j] < k ↔ j < pos key k l := by
  obtain ⟨lo, hi, hs⟩ := exists_split h k
  rw [hs.pos_eq]
  constructor
  · intro hlt
    by_contra hge
    rcases hs.eq with rfl | ⟨x, hx, rfl⟩
    · rw [getElem_append_right (Nat.le_of_not_lt hge)] at hlt
      exact lt_asymm hlt (hs.above _ (getElem_mem _))
    · rw [getElem_append_right (Nat.le_of_not_lt hge)] at hlt
      rcases mem_cons.mp (getElem_mem (l := x :: hi) _) with heq | hmem
      · rw [heq, hx] at hlt
        exact lt_irrefl _ hlt
      · exact lt_asymm hlt (hs.above _ hmem)
  · intro hlt
    rcases hs.eq with rfl | ⟨x, hx, rfl⟩ <;>
      exact (getElem_append_left hlt).symm ▸ hs.below _ (getElem_mem _)

end Sorted

end SortedMap
