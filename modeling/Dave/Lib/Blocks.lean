import Mathlib.Data.List.Basic
import Mathlib.Order.Lattice
import Mathlib.Tactic.Common

/-!
# Blocks of memory

Blocks of bytes, in the order of their addresses. A block that is put in front of others is joined
with the first of them if it ends where that one begins. Such a list stays in order, with a gap
behind every block, and the bytes are those of the blocks.
-/

namespace Blocks

open List

/-- A block of bytes. -/
structure Chunk where
  start : ℕ
  len : ℕ
deriving DecidableEq

/-- The address behind the block. -/
def Chunk.stop (b : Chunk) : ℕ := b.start + b.len

/-- Two blocks have no byte in common. -/
def Apart (a b : Chunk) : Prop := a.stop ≤ b.start ∨ b.stop ≤ a.start

/-- The blocks are in the order of their addresses, and there is a gap behind each of them. -/
def Gapped (l : List Chunk) : Prop := l.Pairwise fun a b => a.stop < b.start

/-- A byte is in one of the blocks. -/
def Covers (l : List Chunk) (x : ℕ) : Prop := ∃ b ∈ l, b.start ≤ x ∧ x < b.stop

/-- A block in front of others, joined with the first of them if there is no gap. -/
def join (a : Chunk) : List Chunk → List Chunk
  | [] => [a]
  | b :: l => if a.stop = b.start then ⟨a.start, a.len + b.len⟩ :: l else a :: b :: l

variable {a b c : Chunk} {l l' : List Chunk} {x : ℕ}

theorem Apart.symm (h : Apart a b) : Apart b a := Or.symm h

instance : Std.Symm Apart := ⟨fun _ _ => Apart.symm⟩

theorem Chunk.start_le_stop (b : Chunk) : b.start ≤ b.stop := Nat.le_add_right _ _

theorem covers_nil : ¬ Covers [] x := fun ⟨_, hb, _⟩ => absurd hb not_mem_nil

theorem covers_cons : Covers (b :: l) x ↔ (b.start ≤ x ∧ x < b.stop) ∨ Covers l x := by
  simp [Covers]

theorem covers_append : Covers (l ++ l') x ↔ Covers l x ∨ Covers l' x := by
  simp [Covers, or_and_right, exists_or]

theorem stop_joined (h : a.stop = b.start) : (⟨a.start, a.len + b.len⟩ : Chunk).stop = b.stop := by
  simp only [Chunk.stop] at h ⊢
  omega

/-- The bytes of what is joined. -/
theorem covers_join (a : Chunk) (l : List Chunk) : Covers (join a l) x ↔ Covers (a :: l) x := by
  cases l with
  | nil => rfl
  | cons b l =>
    rw [join]
    split_ifs with h
    · rw [covers_cons, covers_cons, covers_cons, stop_joined h, ← or_assoc]
      have ha := a.start_le_stop
      have hb := b.start_le_stop
      refine or_congr_left ?_
      change (a.start ≤ x ∧ x < b.stop) ↔ _
      omega
    · rfl

/-- A block that is put in front of others stays in order. -/
theorem Gapped.join (h : Gapped l) (ha : ∀ b ∈ l, a.stop ≤ b.start) : Gapped (join a l) := by
  cases l with
  | nil => exact pairwise_singleton _ _
  | cons b l =>
    obtain ⟨hb, hl⟩ := pairwise_cons.mp h
    rw [Blocks.join]
    split_ifs with heq
    · refine pairwise_cons.mpr ⟨fun c hc => ?_, hl⟩
      rw [stop_joined heq]
      exact hb c hc
    · have hlt : a.stop < b.start := lt_of_le_of_ne (ha b mem_cons_self) heq
      refine pairwise_cons.mpr ⟨fun c hc => ?_, h⟩
      obtain rfl | hc := mem_cons.mp hc
      · exact hlt
      · exact hlt.trans (b.start_le_stop.trans_lt (hb c hc))

/-- A block that has no byte in common with blocks has none in common with what is joined. -/
theorem apart_join (hc : 0 < c.len) (h : ∀ b ∈ a :: l, Apart b c) : ∀ b ∈ join a l, Apart b c := by
  cases l with
  | nil => exact h
  | cons b l =>
    rw [join]
    split_ifs with heq
    · obtain ⟨hac, hbc, hl⟩ : Apart a c ∧ Apart b c ∧ ∀ d ∈ l, Apart d c := by
        simpa using h
      intro d hd
      obtain rfl | hd := mem_cons.mp hd
      · simp only [Apart, Chunk.stop] at *
        omega
      · exact hl d hd
    · exact h

/-- A block of what is joined begins where the block in front begins and is as long, or is one of
the others. -/
theorem mem_join (h : b ∈ join a l) : b.start = a.start ∧ a.len ≤ b.len ∨ b ∈ l := by
  cases l with
  | nil => exact .inl (mem_singleton.mp h ▸ ⟨rfl, Nat.le_refl _⟩)
  | cons c l =>
    rw [join] at h
    split_ifs at h with heq
    · obtain rfl | h := mem_cons.mp h
      · exact .inl ⟨rfl, Nat.le_add_right _ _⟩
      · exact .inr (mem_cons_of_mem c h)
    · obtain rfl | h := mem_cons.mp h
      · exact .inl ⟨rfl, Nat.le_refl _⟩
      · exact .inr h

/-- A block of what is joined ends where one of the blocks ends. -/
theorem stop_of_mem_join (h : b ∈ join a l) : ∃ c ∈ a :: l, b.stop = c.stop := by
  cases l with
  | nil => exact ⟨b, h, rfl⟩
  | cons c l =>
    rw [join] at h
    split_ifs at h with heq
    · obtain rfl | h := mem_cons.mp h
      · exact ⟨c, by simp, stop_joined heq⟩
      · exact ⟨b, by simp [h], rfl⟩
    · exact ⟨b, h, rfl⟩

/-- What is joined begins where the block in front begins. -/
theorem exists_join (a : Chunk) (l : List Chunk) : ∃ n l', join a l = ⟨a.start, n⟩ :: l' := by
  cases l with
  | nil => exact ⟨a.len, [], rfl⟩
  | cons b l =>
    rw [join]
    split_ifs with h
    · exact ⟨_, l, rfl⟩
    · exact ⟨a.len, b :: l, rfl⟩

/-- Every block is part of one of what is joined. -/
theorem exists_mem_join (h : b ∈ a :: l) : ∃ c ∈ join a l, b.len ≤ c.len := by
  cases l with
  | nil => exact ⟨b, h, Nat.le_refl _⟩
  | cons c l =>
    rw [join]
    split_ifs with heq
    · obtain rfl | h := mem_cons.mp h
      · exact ⟨_, mem_cons_self, Nat.le_add_right _ _⟩
      · obtain rfl | h := mem_cons.mp h
        · exact ⟨_, mem_cons_self, Nat.le_add_left _ _⟩
        · exact ⟨b, mem_cons_of_mem _ h, Nat.le_refl _⟩
    · exact ⟨b, h, Nat.le_refl _⟩

/-- The blocks that begin before an address, and those that begin behind it. -/
theorem Gapped.exists_split (h : Gapped (a :: l)) (ha : a.start < x)
    (hx : ∀ b ∈ l, b.start ≠ x) : ∃ lo p hi, a :: l = lo ++ p :: hi ∧ p.start < x ∧
      ∀ b ∈ hi, x < b.start := by
  induction l generalizing a with
  | nil => exact ⟨[], a, [], rfl, ha, fun b hb => absurd hb not_mem_nil⟩
  | cons d l ih =>
    obtain ⟨-, hd⟩ := pairwise_cons.mp h
    by_cases hdx : d.start < x
    · obtain ⟨lo, p, hi, heq, hp, hhi⟩ := ih hd hdx fun b hb => hx b (mem_cons_of_mem d hb)
      exact ⟨a :: lo, p, hi, by rw [heq, cons_append], hp, hhi⟩
    · refine ⟨[], a, d :: l, rfl, ha, fun b hb => ?_⟩
      have hxd : x < d.start := by
        have := hx d mem_cons_self
        omega
      obtain rfl | hb := mem_cons.mp hb
      · exact hxd
      · exact hxd.trans (d.start_le_stop.trans_lt ((pairwise_cons.mp hd).1 b hb))

/-- Nothing is joined if there is a gap. -/
theorem join_of_lt (h : ∀ b ∈ l, a.stop < b.start) : join a l = a :: l := by
  cases l with
  | nil => rfl
  | cons b l => exact if_neg (h b mem_cons_self).ne

end Blocks
