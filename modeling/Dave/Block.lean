import Dave.Lib.BitField

/-!
# Parameters and disk blocks

The constants of `include/param.h` and `include/fs.h`, and the contents of a disk block. A block is
`BSIZE` bytes; it is modelled as one bit vector in little-endian order, so that the casts of
`bp->data` to an array of bytes (`uchar *`), words (`uint *`) or on-disk structures are reads of
fields at different widths.
-/

namespace Dave

/-! ### Parameters -/

/-- `BSIZE`: the block size in bytes. -/
abbrev bSize : ℕ := 512

/-- `MAXOPBLOCKS`: the most blocks one file-system operation writes. -/
abbrev maxOpBlocks : ℕ := 10

/-- `LOGSIZE`: the most data blocks in the on-disk log. -/
abbrev logSize : ℕ := maxOpBlocks * 3

/-! ### Blocks -/

/-- A byte (`uchar`). -/
abbrev Byte : Type := BitVec 8

/-- A machine word (`uint`). -/
abbrev Word : Type := BitVec 32

/-- The contents of a disk block (`uchar data[BSIZE]`). -/
abbrev Block : Type := BitVec (8 * bSize)

namespace Block

open BitField

/-- The byte `data[j]`. -/
def byte (b : Block) (j : ℕ) : Byte := b.extractLsb' (8 * j) 8

/-- The word `((uint*)data)[i]`. -/
def word (b : Block) (i : ℕ) : Word := b.extractLsb' (32 * i) 32

/-- The block after `((uint*)data)[i] = v`. -/
def setWord (b : Block) (i : ℕ) (v : Word) : Block := setField b (32 * i) v

theorem word_setWord_self (b : Block) {i : ℕ} (v : Word) (hi : i < 128) :
    (b.setWord i v).word i = v :=
  extractLsb'_setField_self b v (by simp only [bSize]; omega)

theorem word_setWord_of_ne (b : Block) {i j : ℕ} (v : Word) (hij : i ≠ j) :
    (b.setWord i v).word j = b.word j :=
  extractLsb'_setField_of_disjoint b v (by omega)

@[simp] theorem word_zero (i : ℕ) : (0 : Block).word i = 0 := extractLsb'_zero _ _

end Block

end Dave
