import Dave.Fs.Sys
import Dave.Lib.Ledger

/-!
# The typed disk

The blocks of the disk hold three kinds of things: inodes, the bits of the free map, and data. This
file reads them off as three functions, the *view* of a state, and shows that each way the code
writes a block changes one of the functions at one argument. From here on the layout of the disk
plays no role.

The view also says where an inode keeps block numbers: in its direct addresses, in the address of
its indirect block, and in the words of that block. These are its *places*. The contents of the
`n`-th block of a file, if it has one, are `View.blk`.
-/

namespace Dave.Fs

open Function

variable {P : Type}

/-- The inodes, the free map and the data blocks of a disk. -/
@[ext] structure View where
  dino : ℕ → Dinode
  used : ℕ → Bool
  data : ℕ → Block

/-- The typed disk of a state. -/
def State.view (s : State P) : View where
  dino i := if i < s.sb.ninodes then s.dinode i else Dinode.zero
  used b := if b < s.sb.size then s.bit b else true
  data b := if s.sb.IsData b then s.disk b else 0

/-- The view with the inode `i` replaced. -/
@[simps -fullyApplied]
def View.setDino (v : View) (i : ℕ) (d : Dinode) : View :=
  { v with dino := update v.dino i d }

/-- The view with the mark of block `b` replaced. -/
@[simps -fullyApplied]
def View.setUsed (v : View) (b : ℕ) (u : Bool) : View :=
  { v with used := update v.used b u }

/-- The view with the data block `b` replaced. -/
@[simps -fullyApplied]
def View.setData (v : View) (b : ℕ) (x : Block) : View :=
  { v with data := update v.data b x }

/-- The view in which the inode of entry `ip` is its copy in the inode cache. -/
def State.focus (s : State P) (ip : Slot) : View :=
  s.view.setDino (s.icache ip).inum (s.icache ip).d

/-! ### What the writes of the code do to the view -/

section Writes

variable (s : State P)

@[simp] theorem view_record (a : Action) : (s.record a).view = s.view := rfl

@[simp] theorem view_setInode (ip : Slot) (x : Inode P) : (s.setInode ip x).view = s.view := rfl

@[simp] theorem view_setFile (f : Fin nFile) (x : File) : (s.setFile f x).view = s.view := rfl

@[simp] theorem view_setProc [DecidableEq P] (p : P) (x : Proc) : (s.setProc p x).view = s.view :=
  rfl

@[simp] theorem focus_record (a : Action) (ip : Slot) : (s.record a).focus ip = s.focus ip := rfl

variable {s}

variable {b : ℕ}

theorem view_setBit (h : s.sb.Ordered) (hb : b < s.sb.size) (u : Bool) :
    (s.setBlock (s.sb.bblock b) (setBit (s.disk (s.sb.bblock b)) (b % bpb) u)).view =
      s.view.setUsed b u := by
  refine View.ext (funext fun i => ?_) (funext fun c => ?_) (funext fun c => ?_)
  · refine ite_congr rfl (fun hi => ?_) fun _ => rfl
    have hne : s.sb.iblock i ≠ s.sb.bblock b :=
      ((h.iblock_lt hi).trans_le (s.sb.le_bblock b)).ne
    simp only [State.setBlock, State.dinode, update_of_ne hne]
  · by_cases hcb : c = b
    · subst hcb
      have hlt : c % bpb < bpb := Nat.mod_lt _ (by decide)
      simp only [State.view, State.setBlock, State.bit, View.setUsed, hb, ↓reduceIte,
        update_self, getBit_setBit_self _ _ hlt]
    · simp only [View.setUsed, update_of_ne hcb]
      refine ite_congr rfl (fun hc => ?_) fun _ => rfl
      simp only [State.setBlock, State.bit]
      by_cases hblk : s.sb.bblock c = s.sb.bblock b
      · have hbit : b % bpb ≠ c % bpb := fun hbit =>
          hcb (Superblock.eq_of_bblock_eq hblk hbit.symm)
        rw [hblk, update_self, getBit_setBit_of_ne _ _ hbit (Nat.mod_lt _ (by decide))]
      · rw [update_of_ne hblk]
  · refine ite_congr rfl (fun hc => ?_) fun _ => rfl
    have hne : c ≠ s.sb.bblock b := ((h.bblock_lt hb).trans_le hc.1).ne'
    simp only [State.setBlock, update_of_ne hne]

theorem view_setData (h : s.sb.Ordered) (hb : s.sb.IsData b) (x : Block) :
    (s.setBlock b x).view = s.view.setData b x := by
  refine View.ext (funext fun i => ?_) (funext fun c => ?_) (funext fun c => ?_)
  · refine ite_congr rfl (fun hi => ?_) fun _ => rfl
    have hne : s.sb.iblock i ≠ b := by
      have h1 := h.iblock_lt hi
      have h2 := h.bblock_lt (b := b) hb.2
      have h3 := s.sb.le_bblock b
      have h4 := hb.1
      omega
    simp only [State.setBlock, State.dinode, update_of_ne hne]
  · refine ite_congr rfl (fun hc => ?_) fun _ => rfl
    simp only [State.setBlock, State.bit, update_of_ne ((h.bblock_lt hc).trans_le hb.1).ne]
  · by_cases hcb : c = b
    · subst hcb
      simp only [State.view, State.setBlock, View.setData, hb, ↓reduceIte, update_self]
    · simp only [State.view, State.setBlock, View.setData, update_of_ne hcb]

theorem view_inodeBlock (h : s.sb.Ordered) {i : ℕ} (hi : i < s.sb.ninodes) (d : Dinode) :
    (s.setBlock (s.sb.iblock i) (s.inodeBlock i d)).view = s.view.setDino i d := by
  refine View.ext (funext fun j => ?_) (funext fun c => ?_) (funext fun c => ?_)
  · by_cases hji : j = i
    · subst hji
      simp only [State.view, State.setBlock, State.dinode, View.setDino, State.inodeBlock, hi,
        ↓reduceIte, update_self,
        getDinode_setDinode_self _ _ (Nat.mod_lt _ (by decide : 0 < ipb))]
    · simp only [View.setDino, update_of_ne hji]
      refine ite_congr rfl (fun hj => ?_) fun _ => rfl
      simp only [State.setBlock, State.dinode, State.inodeBlock]
      by_cases hblk : s.sb.iblock j = s.sb.iblock i
      · have hslot : i % ipb ≠ j % ipb := fun hslot =>
          hji (Superblock.eq_of_iblock_eq hblk hslot.symm)
        rw [hblk, update_self, getDinode_setDinode_of_ne _ _ hslot]
      · rw [update_of_ne hblk]
  · refine ite_congr rfl (fun hc => ?_) fun _ => rfl
    have hne : s.sb.bblock c ≠ s.sb.iblock i :=
      ((h.iblock_lt hi).trans_le (s.sb.le_bblock c)).ne'
    simp only [State.setBlock, State.bit, update_of_ne hne]
  · refine ite_congr rfl (fun hc => ?_) fun _ => rfl
    have hne : c ≠ s.sb.iblock i := by
      have h1 := h.iblock_lt hi
      have h2 := s.sb.le_bblock c
      have h3 := h.bblock_lt hc.2
      have h4 := hc.1
      omega
    simp only [State.setBlock, update_of_ne hne]

theorem view_dino {i : ℕ} (h : i < s.sb.ninodes) : s.view.dino i = s.dinode i := if_pos h

theorem view_used (h : b < s.sb.size) : s.view.used b = s.bit b := if_pos h

theorem view_data (h : s.sb.IsData b) : s.view.data b = s.disk b := if_pos h

end Writes

/-! ### Places -/

/-- The block number in an address, where zero stands for none. -/
def blockOf (a : Word) : Option ℕ := if a = 0 then none else some a.toNat

/-- The number of places of an inode. -/
abbrev nPlaces : ℕ := nDirect + 1 + nIndirect

/-- The block number in the `k`-th place of an inode: the addresses first, then the words of the
indirect block. -/
def Dinode.place (d : Dinode) (data : ℕ → Block) (k : ℕ) : Option ℕ :=
  if d.type = 0 then none
  else if h : k < nDirect + 1 then blockOf (d.addrs ⟨k, h⟩)
  else if k < nPlaces then
    (blockOf (d.addrs (Fin.last nDirect))).bind fun b =>
      blockOf ((data b).word (k - (nDirect + 1)))
  else none

/-- The block number in the `k`-th place of inode `i`. -/
def View.place (v : View) (p : ℕ × ℕ) : Option ℕ := (v.dino p.1).place v.data p.2

/-- The place that holds the number of the `n`-th block of a file. -/
def fileIdx (n : ℕ) : ℕ := if n < nDirect then n else n + 1

/-- The contents of the `n`-th block of inode `i`, if it has one. -/
def View.blk (v : View) (i n : ℕ) : Option Block := (v.place (i, fileIdx n)).map v.data

end Dave.Fs
