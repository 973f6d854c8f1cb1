import Dave.Block
import Mathlib.Data.List.Nodup

/-!
# The log header block

`struct logheader` (`log.c`) is a count `n` followed by the array `block` of block numbers. The
same structure is the first part of the on-disk header block and the in-memory record of the
blocks of the current transaction. In memory it is modelled by the list `block[0..n)`; on disk it
is words of the header block, read by `readHead` and written by `writeHead`.
-/

namespace Dave.Logging

open BitField

/-- The block numbers `block[0..n)` recorded in a header block, as `read_head` copies them. -/
def headOf (b : Block) : List Word :=
  (List.range (b.word 0).toNat).map fun i => b.word (i + 1)

/-- The header block `b` after `write_head` stores the list `lh` in it: the count, then the first
`n` entries of the array. The rest of the block keeps what it held. -/
def setHead (b : Block) (lh : List Word) : Block :=
  setArray (b.setWord 0 (BitVec.ofNat 32 lh.length)) 1 lh

theorem headOf_setHead (b : Block) {lh : List Word} (h : lh.length ≤ logSize) :
    headOf (setHead b lh) = lh := by
  have hlen : lh.length ≤ 30 := h
  have hcount : (setHead b lh).word 0 = BitVec.ofNat 32 lh.length := by
    rw [setHead, Block.word, extractLsb'_setArray_of_disjoint _ _ _ (.inl (by omega))]
    exact Block.word_setWord_self b _ (by omega)
  have hn : ((setHead b lh).word 0).toNat = lh.length := by
    rw [hcount, BitVec.toNat_ofNat]
    exact Nat.mod_eq_of_lt (by omega)
  rw [headOf, hn]
  apply List.ext_getElem
  · simp
  · intro i h₁ h₂
    rw [List.getElem_map, List.getElem_range, setHead, Block.word,
      extractLsb'_setArray _ _ _ (by simp only [bSize]; omega)]
    have hin : 1 ≤ i + 1 ∧ i + 1 < 1 + lh.length := by omega
    simp [hin]

theorem headOf_setHead_nil (b : Block) : headOf (setHead b []) = [] :=
  headOf_setHead b (by simp)

theorem headOf_eq_nil_iff (b : Block) : headOf b = [] ↔ b.word 0 = 0 := by
  rw [headOf, List.map_eq_nil_iff, List.range_eq_nil]
  exact ⟨fun h => BitVec.eq_of_toNat_eq h, fun h => by rw [h]; rfl⟩

end Dave.Logging
