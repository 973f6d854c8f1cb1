import Dave.Fs.State

/-!
# Blocks and inodes

The lower half of `fs.c`: the block allocator, the inode cache with its locks, and the contents of
an inode.

A pointer to an inode is an entry of the inode cache. There is one device, so that the block
functions drop their argument `dev`. The loops of `balloc`, `ialloc` and `iget` that look for the
first free block, inode or entry are searches in the order of the loops.
-/

namespace Dave.Fs

variable {P : Type}

/-! ### Blocks -/

/-- The bit of block `b` in the free map. -/
def State.bit (s : State P) (b : ℕ) : Bool := getBit (s.disk (s.sb.bblock b)) (b % bpb)

@[simp] theorem State.record_bit (s : State P) (a : Action) (b : ℕ) :
    (s.record a).bit b = s.bit b := rfl

def bzero (bno : ℕ) : M P Unit := logWrite bno 0

/-- Allocate a zeroed disk block: the first whose bit is clear. -/
def balloc : M P ℕ := do
  modify fun s => s.record .balloc
  let s ← get
  match (List.range s.sb.size).find? fun b => !s.bit b with
  | some b =>
    logWrite (s.sb.bblock b) (setBit (s.disk (s.sb.bblock b)) (b % bpb) true)
    bzero b
    return b
  | none => throw .outOfBlocks

def bfree (b : ℕ) : M P Unit := do
  let s ← get
  if s.bit b then
    logWrite (s.sb.bblock b) (setBit (s.disk (s.sb.bblock b)) (b % bpb) false)
  else
    throw .freeingFreeBlock

/-! ### Inodes -/

/-- The inode `i` on the disk. -/
def State.dinode (s : State P) (i : ℕ) : Dinode := getDinode (s.disk (s.sb.iblock i)) (i % ipb)

/-- The block of inode `i` after that inode has been replaced. -/
def State.inodeBlock (s : State P) (i : ℕ) (d : Dinode) : Block :=
  setDinode (s.disk (s.sb.iblock i)) (i % ipb) d

/-- Find the inode with number `inum` on device `dev` and return the in-memory copy. Does not lock
the inode and does not read it from disk. -/
def iget (dev inum : ℕ) : M P Slot := do
  let s ← get
  match (List.finRange nInode).find? fun ip =>
      0 < (s.icache ip).ref ∧ (s.icache ip).dev = dev ∧ (s.icache ip).inum = inum with
  | some ip =>
    modify fun s => s.setInode ip { s.icache ip with ref := (s.icache ip).ref + 1 }
    return ip
  | none =>
    match (List.finRange nInode).find? fun ip => (s.icache ip).ref = 0 with
    | some ip =>
      modify fun s =>
        s.setInode ip { s.icache ip with dev := dev, inum := inum, ref := 1, valid := false }
      return ip
    | none => throw .igetNoInodes

/-- Allocate an inode with the given type: the first whose type is zero. Returns it referenced and
unlocked. -/
def ialloc (dev : ℕ) (type : Short) : M P Slot := do
  modify fun s => s.record .ialloc
  let s ← get
  match (List.range' 1 (s.sb.ninodes - 1)).find? fun inum => (s.dinode inum).type = 0 with
  | some inum =>
    logWrite (s.sb.iblock inum) (s.inodeBlock inum { Dinode.zero with type := type })
    iget dev inum
  | none => throw .iallocNoInodes

def iupdate (ip : Slot) : M P Unit := do
  modify fun s => s.record .iupdate
  let s ← get
  let i := s.icache ip
  logWrite (s.sb.iblock i.inum) (s.inodeBlock i.inum i.d)

def idup (ip : Slot) : M P Slot := do
  modify fun s => s.setInode ip { s.icache ip with ref := (s.icache ip).ref + 1 }
  return ip

/-- Change the fields of an in-memory inode that live on disk. -/
def modifyInode (ip : Slot) (f : Dinode → Dinode) : M P Unit :=
  modify fun s => s.setInode ip { s.icache ip with d := f (s.icache ip).d }

/-! ### Contents -/

/-- `ip->addrs[k] = addr`. -/
def setAddr (ip : Slot) (k : Fin (nDirect + 1)) (addr : ℕ) : M P Unit :=
  modifyInode ip fun d => { d with addrs := Function.update d.addrs k (BitVec.ofNat 32 addr) }

/-- The address in `ip->addrs[k]`, allocated if it is zero. -/
def addrOrAlloc (ip : Slot) (k : Fin (nDirect + 1)) : M P ℕ := do
  let s ← get
  let addr := (s.icache ip).d.addrs k
  if addr = 0 then
    let b ← balloc
    setAddr ip k b
    return b
  else
    return addr.toNat

/-- The disk block address of the `bn`-th block of an inode. If there is no such block, one is
allocated. -/
def bmap (ip : Slot) (bn : ℕ) : M P ℕ :=
  if h : bn < nDirect then
    addrOrAlloc ip ⟨bn, Nat.lt_succ_of_lt h⟩
  else if bn - nDirect < nIndirect then do
    -- Load indirect block, allocating if necessary.
    let addr ← addrOrAlloc ip (Fin.last nDirect)
    let bp ← bread addr
    let a := bp.word (bn - nDirect)
    if a = 0 then
      let b ← balloc
      logWrite addr (bp.setWord (bn - nDirect) (BitVec.ofNat 32 b))
      return b
    else
      return a.toNat
  else
    throw .bmapOutOfRange

def itrunc (ip : Slot) : M P Unit := do
  (List.finRange nDirect).forM fun i => do
    let addr := ((← get).icache ip).d.addrs i.castSucc
    if addr ≠ 0 then
      bfree addr.toNat
      setAddr ip i.castSucc 0
  let addr := ((← get).icache ip).d.addrs (Fin.last nDirect)
  if addr ≠ 0 then
    let bp ← bread addr.toNat
    (List.range nIndirect).forM fun j => do
      if bp.word j ≠ 0 then
        bfree (bp.word j).toNat
    bfree addr.toNat
    setAddr ip (Fin.last nDirect) 0
  modifyInode ip fun d => { d with size := 0 }
  iupdate ip

/-- The bytes of a block from `o` up to `o + m`. -/
def Block.bytes (b : Block) (o m : ℕ) : List Byte := (List.range' o m).map b.byte

/-- The block after `memmove(data + o, src, n)`. -/
def Block.setBytes (b : Block) (o : ℕ) (src : List Byte) : Block := BitField.setArray b o src

/-- The loop of `readi`: the `n` bytes from `off`, taken from one block after the other. Each round
reads at least one byte, so `n` rounds are enough. -/
def readLoop (ip : Slot) : ℕ → ℕ → ℕ → M P (List Byte)
  | 0, _, _ => return []
  | fuel + 1, off, n => do
    if n = 0 then return [] else
      let bp ← bread (← bmap ip (off / bSize))
      let m := min n (bSize - off % bSize)
      let rest ← readLoop ip fuel (off + m) (n - m)
      return Block.bytes bp (off % bSize) m ++ rest

/-- `readi` for an inode that is not a device: the bytes read, or nothing for `-1`. -/
def readData (ip : Slot) (off n : Word) : M P (Option (List Byte)) := do
  let size := ((← get).icache ip).d.size
  if off > size ∨ off + n < off then
    return none
  else
    let n := if off + n > size then size - off else n
    return some (← readLoop ip n.toNat off.toNat n.toNat)

/-- The loop of `writei`. -/
def writeLoop (ip : Slot) : ℕ → ℕ → List Byte → M P Unit
  | 0, _, _ => return
  | fuel + 1, off, src => do
    if src.length = 0 then return else
      let addr ← bmap ip (off / bSize)
      let bp ← bread addr
      let m := min src.length (bSize - off % bSize)
      logWrite addr (Block.setBytes bp (off % bSize) (src.take m))
      writeLoop ip fuel (off + m) (src.drop m)

/-- `writei` for an inode that is not a device, with `n` bytes at `src`: the number of bytes
written, or nothing for `-1`. -/
def writeData (ip : Slot) (src : List Byte) (off : Word) : M P (Option ℕ) := do
  let size := ((← get).icache ip).d.size
  let n := BitVec.ofNat 32 src.length
  if off > size ∨ off + n < off then
    return none
  else if off + n > BitVec.ofNat 32 (maxFile * bSize) then
    return none
  else
    writeLoop ip n.toNat off.toNat src
    if n > 0 ∧ off + n > size then
      modifyInode ip fun d => { d with size := off + n }
      iupdate ip
    return some n.toNat

/-! ### Locking -/

/-- The part of `ilock` under the lock: read the inode from disk if necessary. -/
def fill (ip : Slot) : M P Unit := do
  let s ← get
  let i := s.icache ip
  if i.valid = false then
    modify fun s => s.setInode ip { i with d := s.dinode i.inum, valid := true }
    if (s.dinode i.inum).type = 0 then
      throw .ilockNoType

def ilock (ip : Slot) (site : Site) : Kernel P Unit := do
  .lift do
    if ((← get).icache ip).ref < 1 then
      throw .ilock
  .acq ip site
  .lift (fill ip)

def iunlock [DecidableEq P] (me : P) (ip : Slot) : Kernel P Unit := do
  .lift do
    let i := (← get).icache ip
    if i.lock ≠ some me ∨ i.ref < 1 then
      throw .iunlock
  .rel ip

/-- The sleep-lock section of `iput`: free the inode if it has no links and no other references. -/
def iputFree (ip : Slot) : M P Unit := do
  let i := (← get).icache ip
  if i.valid = true ∧ i.d.nlink = 0 then
    if i.ref = 1 then
      itrunc ip
      modifyInode ip fun d => { d with type := 0 }
      iupdate ip
      modify fun s => s.setInode ip { s.icache ip with valid := false }

/-- The `icache.lock` section of `iput`. -/
def iputDrop (ip : Slot) : M P Unit :=
  modify fun s => s.setInode ip { s.icache ip with ref := (s.icache ip).ref - 1 }

def iput (ip : Slot) : Kernel P Unit := do
  .lift (modify fun s => s.record .iput)
  .acq ip .iput
  .lift (iputFree ip)
  .rel ip
  .yield
  .lift (iputDrop ip)

def iunlockput [DecidableEq P] (me : P) (ip : Slot) : Kernel P Unit := do
  iunlock me ip
  iput ip

/-! ### Reading and writing, devices included -/

/-- The driver that `devsw[major]` names: only the console has one. -/
def hasDriver (major : Short) : Bool :=
  ¬ (major.toInt < 0 ∨ major.toInt ≥ nDev ∨ major.toInt ≠ console)

/-- `readi`. The console gives the inode lock away while it waits for input; `input` is what it
then delivers, or nothing if the process is killed meanwhile. -/
def readi [DecidableEq P] (me : P) (ip : Slot) (off n : Word) (input : Option (List Byte)) :
    Kernel P (Option (List Byte)) := do
  let d ← .lift do return ((← get).icache ip).d
  if d.type = tDev then
    if hasDriver d.major then
      iunlock me ip
      ilock ip .ilock
      return input.map (List.take n.toNat)
    else
      return none
  else
    .lift (readData ip off n)

/-- `writei`, with `n` bytes at `src`. -/
def writei [DecidableEq P] (me : P) (ip : Slot) (src : List Byte) (off : Word) :
    Kernel P (Option ℕ) := do
  let d ← .lift do return ((← get).icache ip).d
  if d.type = tDev then
    if hasDriver d.major then
      iunlock me ip
      ilock ip .ilock
      return some src.length
    else
      return none
  else
    .lift (writeData ip src off)

end Dave.Fs
