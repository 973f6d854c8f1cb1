import Dave.Block

/-!
# The on-disk format

The structures of `include/fs.h`: the super block, the on-disk inode and where the inodes and the
bits of the free map lie. The disk is laid out as boot block, super block, log, inode blocks, free
map, data blocks.
-/

namespace Dave.Fs

open BitField

/-! ### Parameters -/

/-- `NDIRECT`: the number of direct block addresses of an inode. -/
abbrev nDirect : ℕ := 12

/-- `NINDIRECT`: the number of block addresses in an indirect block. -/
abbrev nIndirect : ℕ := bSize / 4

/-- `MAXFILE`: the most blocks a file can have. -/
abbrev maxFile : ℕ := nDirect + nIndirect

/-- `IPB`: the number of inodes in a block. -/
abbrev ipb : ℕ := bSize / 64

/-- `BPB`: the number of free map bits in a block. -/
abbrev bpb : ℕ := bSize * 8

/-- `ROOTINO`: the inode number of the root directory. -/
abbrev rootIno : ℕ := 1

/-- `ROOTDEV`: the device of the root file system. -/
abbrev rootDev : ℕ := 1

/-- A 16-bit field (`short` or `ushort`). -/
abbrev Short : Type := BitVec 16

/-- `T_DIR`: a directory. -/
abbrev tDir : Short := 1

/-- `T_FILE`: a regular file. -/
abbrev tFile : Short := 2

/-- `T_DEV`: a device. -/
abbrev tDev : Short := 3

/-! ### The super block -/

/-- The super block (`struct superblock`), less the place of the log. -/
structure Superblock where
  size : ℕ
  nblocks : ℕ
  ninodes : ℕ
  inodestart : ℕ
  bmapstart : ℕ

namespace Superblock

variable (sb : Superblock)

/-- `IBLOCK(i, sb)`: the block that holds inode `i`. -/
def iblock (i : ℕ) : ℕ := i / ipb + sb.inodestart

/-- `BBLOCK(b, sb)`: the block of the free map that holds the bit of block `b`. -/
def bblock (b : ℕ) : ℕ := b / bpb + sb.bmapstart

theorem le_bblock (b : ℕ) : sb.bmapstart ≤ sb.bblock b := Nat.le_add_left _ _

/-- The first data block: the data blocks are the last `nblocks` blocks. -/
def datastart : ℕ := sb.size - sb.nblocks

/-- `b` is a data block. -/
def IsData (b : ℕ) : Prop := sb.datastart ≤ b ∧ b < sb.size

instance (b : ℕ) : Decidable (sb.IsData b) := inferInstanceAs (Decidable (_ ∧ _))

/-- The areas of the disk lie in the documented order, block numbers fit in an `int` and inode
numbers in the `ushort` of a directory entry. -/
structure Ordered : Prop where
  inodestart_pos : 0 < sb.inodestart
  inodes : sb.iblock (sb.ninodes - 1) < sb.bmapstart
  bits : sb.bblock (sb.size - 1) < sb.datastart
  size_lt : sb.size < 2 ^ 31
  ninodes_le : sb.ninodes ≤ 2 ^ 16
  root : rootIno < sb.ninodes

variable {sb}

theorem Ordered.iblock_lt (h : sb.Ordered) {i : ℕ} (hi : i < sb.ninodes) :
    sb.iblock i < sb.bmapstart := by
  refine Nat.lt_of_le_of_lt ?_ h.inodes
  exact Nat.add_le_add_right (Nat.div_le_div_right (by omega)) _

theorem Ordered.bblock_lt (h : sb.Ordered) {b : ℕ} (hb : b < sb.size) :
    sb.bblock b < sb.datastart := by
  refine Nat.lt_of_le_of_lt ?_ h.bits
  exact Nat.add_le_add_right (Nat.div_le_div_right (by omega)) _

theorem eq_of_iblock_eq {i j : ℕ} (h : sb.iblock i = sb.iblock j) (hs : i % ipb = j % ipb) :
    i = j := by
  simp only [iblock, ipb, bSize] at h hs
  omega

theorem eq_of_bblock_eq {b c : ℕ} (h : sb.bblock b = sb.bblock c) (hs : b % bpb = c % bpb) :
    b = c := by
  simp only [bblock, bpb, bSize] at h hs
  omega

theorem Ordered.datastart_pos (h : sb.Ordered) : 0 < sb.datastart := by
  have := h.bits
  omega

end Superblock

/-! ### On-disk inodes -/

/-- The on-disk inode (`struct dinode`). -/
structure Dinode where
  type : Short
  major : Short
  minor : Short
  nlink : Short
  size : Word
  addrs : Fin (nDirect + 1) → Word
  deriving DecidableEq

namespace Dinode

/-- The inode after `memset(dip, 0, sizeof(*dip))`. -/
def zero : Dinode := ⟨0, 0, 0, 0, 0, fun _ => 0⟩

/-- The 64 bytes of an inode. -/
def toBits (d : Dinode) : BitVec 512 :=
  setArray (setField (setField (setField (setField (setField (0 : BitVec 512) 0 d.type)
    16 d.major) 32 d.minor) 48 d.nlink) 64 d.size) 3 (List.ofFn d.addrs)

/-- The inode in 64 bytes. -/
def ofBits (b : BitVec 512) : Dinode where
  type := b.extractLsb' 0 16
  major := b.extractLsb' 16 16
  minor := b.extractLsb' 32 16
  nlink := b.extractLsb' 48 16
  size := b.extractLsb' 64 32
  addrs i := b.extractLsb' (32 * (3 + i)) 32

theorem ofBits_toBits (d : Dinode) : ofBits d.toBits = d := by
  have hlow {o w : ℕ} (h : o + w ≤ 96) : d.toBits.extractLsb' o w =
      (setField (setField (setField (setField (setField (0 : BitVec 512) 0 d.type)
        16 d.major) 32 d.minor) 48 d.nlink) 64 d.size).extractLsb' o w :=
    extractLsb'_setArray_of_disjoint _ _ _ (.inl (by omega))
  obtain ⟨type, major, minor, nlink, size, addrs⟩ := d
  simp only [ofBits, mk.injEq]
  refine ⟨?_, ?_, ?_, ?_, ?_, ?_⟩
  · rw [hlow (by omega), extractLsb'_setField_of_disjoint _ _ (by omega),
      extractLsb'_setField_of_disjoint _ _ (by omega),
      extractLsb'_setField_of_disjoint _ _ (by omega),
      extractLsb'_setField_of_disjoint _ _ (by omega), extractLsb'_setField_self _ _ (by omega)]
  · rw [hlow (by omega), extractLsb'_setField_of_disjoint _ _ (by omega),
      extractLsb'_setField_of_disjoint _ _ (by omega),
      extractLsb'_setField_of_disjoint _ _ (by omega), extractLsb'_setField_self _ _ (by omega)]
  · rw [hlow (by omega), extractLsb'_setField_of_disjoint _ _ (by omega),
      extractLsb'_setField_of_disjoint _ _ (by omega), extractLsb'_setField_self _ _ (by omega)]
  · rw [hlow (by omega), extractLsb'_setField_of_disjoint _ _ (by omega),
      extractLsb'_setField_self _ _ (by omega)]
  · rw [hlow (by omega), extractLsb'_setField_self _ _ (by omega)]
  · funext i
    have hi := i.isLt
    rw [toBits, extractLsb'_setArray _ _ _ (by simp)]
    have hin : 3 ≤ 3 + (i : ℕ) ∧ 3 + (i : ℕ) < 3 + (List.ofFn addrs).length := by
      rw [List.length_ofFn]
      omega
    rw [dif_pos hin]
    simp only [List.get_eq_getElem, List.getElem_ofFn, Nat.add_sub_cancel_left]

end Dinode

/-- The inode `(struct dinode*)data + k`. -/
def getDinode (b : Block) (k : ℕ) : Dinode := .ofBits (b.extractLsb' (512 * k) 512)

/-- The block after the inode `(struct dinode*)data + k` has been replaced. -/
def setDinode (b : Block) (k : ℕ) (d : Dinode) : Block := setField b (512 * k) d.toBits

theorem getDinode_setDinode_self (b : Block) {k : ℕ} (d : Dinode) (hk : k < ipb) :
    getDinode (setDinode b k d) k = d := by
  simp only [ipb, bSize] at hk
  rw [getDinode, setDinode, extractLsb'_setField_self _ _ (by simp only [bSize]; omega),
    Dinode.ofBits_toBits]

theorem getDinode_setDinode_of_ne (b : Block) {k l : ℕ} (d : Dinode) (h : k ≠ l) :
    getDinode (setDinode b k d) l = getDinode b l := by
  rw [getDinode, setDinode, extractLsb'_setField_of_disjoint _ _ (by omega), getDinode]

/-! ### The free map -/

/-- `data[bi/8] & (1 << (bi % 8))`: the bit is set. -/
def getBit (b : Block) (bi : ℕ) : Bool := b.getLsbD bi

/-- The block after that bit has been set or cleared. -/
def setBit (b : Block) (bi : ℕ) (v : Bool) : Block := setField b bi (BitVec.ofBool v)

theorem getBit_setBit_self (b : Block) {bi : ℕ} (v : Bool) (h : bi < bpb) :
    getBit (setBit b bi v) bi = v := by
  rw [getBit, setBit, getLsbD_setField _ _ _ (by simpa [bpb, bSize] using h)]
  simp

theorem getBit_setBit_of_ne (b : Block) {bi ci : ℕ} (v : Bool) (h : bi ≠ ci) (hc : ci < bpb) :
    getBit (setBit b bi v) ci = getBit b ci := by
  rw [getBit, setBit, getLsbD_setField _ _ _ (by simpa [bpb, bSize] using hc), if_neg (by omega),
    getBit]

end Dave.Fs
