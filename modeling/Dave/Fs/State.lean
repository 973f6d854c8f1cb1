import Dave.Fs.Layout
import Dave.Lib.Prog
import Mathlib.Tactic.Simps.Basic

/-!
# The state of the file system

What the code of `fs.c`, `file.c` and `sysfile.c` reads and writes: the disk as the buffer cache
presents it, the inode cache, the file table, and of each process its current directory and its
descriptors. Processes are elements of a type `P`, so that their number is not fixed.

The log and the buffer cache are below this layer: `bread` returns the latest contents of a block
and `log_write` stores new contents; `begin_op` and `end_op` leave a mark in the trace. The state of
pipes is not part of the file system, and no call modelled here makes a file of type `FD_PIPE`.
-/

namespace Dave.Fs

/-! ### Parameters -/

/-- `NINODE`: the number of entries of the inode cache. -/
abbrev nInode : ℕ := 50

/-- `NFILE`: the number of open files per system. -/
abbrev nFile : ℕ := 100

/-- `NOFILE`: the number of open files per process. -/
abbrev nOfile : ℕ := 16

theorem toNat_lt_nOfile {fd : ℤ} (h : 0 ≤ fd ∧ fd < nOfile) : fd.toNat < nOfile := by omega

/-- `NDEV`: the number of major device numbers. -/
abbrev nDev : ℕ := 10

/-- `CONSOLE`: the major device number of the console, the only device in `devsw`. -/
abbrev console : ℕ := 1

/-! ### The inode cache, files and processes -/

/-- An entry of the inode cache, as a pointer (`struct inode *`). -/
abbrev Slot : Type := Fin nInode

/-- The in-memory copy of an inode (`struct inode`). -/
structure Inode (P : Type) where
  dev : ℕ
  inum : ℕ
  ref : ℕ
  /-- the process that holds the sleep lock -/
  lock : Option P
  valid : Bool
  /-- the fields copied from the disk: `type`, `major`, `minor`, `nlink`, `size`, `addrs` -/
  d : Dinode

inductive FileType where
  | none
  | inode
  deriving DecidableEq

/-- An open file (`struct file`). -/
structure File where
  type : FileType
  ref : ℕ
  readable : Bool
  writable : Bool
  ip : Slot
  off : Word

inductive ProcState where
  | unused
  | live
  | zombie
  deriving DecidableEq

/-- What the file system knows of a process (`struct proc`). -/
structure Proc where
  state : ProcState
  cwd : Option Slot
  ofile : Fin nOfile → Option (Fin nFile)

/-- What the trace of a run records. -/
inductive Action where
  | beginOp
  | endOp
  | logWrite (b : ℕ)
  | balloc
  | ialloc
  | iupdate
  | iput
  deriving DecidableEq

structure State (P : Type) where
  sb : Superblock
  /-- the contents of the blocks, through the buffer cache -/
  disk : ℕ → Block
  icache : Slot → Inode P
  ftable : Fin nFile → File
  proc : P → Proc
  /-- what has happened, the latest first -/
  trace : List Action

/-! ### Code -/

inductive Panic where
  /-- `balloc: out of blocks` -/
  | outOfBlocks
  /-- `freeing free block` -/
  | freeingFreeBlock
  /-- `ialloc: no inodes` -/
  | iallocNoInodes
  /-- `iget: no inodes` -/
  | igetNoInodes
  /-- `ilock` -/
  | ilock
  /-- `ilock: no type` -/
  | ilockNoType
  /-- `iunlock` -/
  | iunlock
  /-- `bmap: out of range` -/
  | bmapOutOfRange
  /-- `dirlookup not DIR` -/
  | dirlookupNotDir
  /-- `dirlookup read` -/
  | dirlookupRead
  /-- `dirlink read` -/
  | dirlinkRead
  /-- `dirlink` -/
  | dirlink
  /-- `isdirempty: readi` -/
  | isdiremptyReadi
  /-- `unlink: nlink < 1` -/
  | unlinkNlink
  /-- `unlink: writei` -/
  | unlinkWritei
  /-- `create dots` -/
  | createDots
  /-- `create: dirlink` -/
  | createDirlink
  /-- `filedup` -/
  | filedup
  /-- `fileclose` -/
  | fileclose
  /-- `fileread` -/
  | fileread
  /-- `filewrite` -/
  | filewrite
  /-- `short filewrite` -/
  | shortFilewrite
  /-- a null pointer is followed -/
  | nullPointer
  deriving DecidableEq

/-- The place in the source where an inode lock is taken. -/
inductive Site where
  /-- `ilock` in the loop of `namex` -/
  | namex
  /-- the first `ilock(ip)` in `sys_link` -/
  | linkOld
  /-- `ilock(dp)` in `sys_link`, to make an entry with the given name -/
  | linkParent (name : List Byte)
  /-- `ilock(dp)` in `sys_unlink`, on the way to the entry with the given name -/
  | unlinkParent (name : List Byte)
  /-- `ilock(dp)` in `create`, to find or make an entry with the given name -/
  | createParent (name : List Byte)
  /-- `ilock(ip)` in `create`, of the inode that has been allocated -/
  | createNew
  /-- `ilock` in another place -/
  | ilock
  /-- `acquiresleep` in `iput` -/
  | iput
  deriving DecidableEq

variable (P : Type)

/-- Code without lock operations. -/
abbrev M : Type → Type := StateT (State P) (Except Panic)

/-- Code with operations on inode locks. -/
abbrev Kernel : Type → Type := Prog (State P) Panic Slot Site

variable {P}

namespace State

/-- The entry `ip` of the inode cache replaced. -/
@[simps -fullyApplied sb disk icache ftable proc]
def setInode (s : State P) (ip : Slot) (x : Inode P) : State P :=
  { s with icache := Function.update s.icache ip x }

/-- The file `f` replaced. -/
@[simps -fullyApplied sb icache ftable proc]
def setFile (s : State P) (f : Fin nFile) (x : File) : State P :=
  { s with ftable := Function.update s.ftable f x }

/-- The process `p` replaced. -/
@[simps -fullyApplied sb icache ftable proc]
def setProc [DecidableEq P] (s : State P) (p : P) (x : Proc) : State P :=
  { s with proc := Function.update s.proc p x }

/-- The block `b` replaced. -/
@[simps -fullyApplied sb icache ftable proc]
def setBlock (s : State P) (b : ℕ) (x : Block) : State P :=
  { s with disk := Function.update s.disk b x }

/-- A mark in the trace. -/
@[simps -fullyApplied sb disk icache ftable proc]
def record (s : State P) (a : Action) : State P := { s with trace := a :: s.trace }

@[simp] theorem setInode_setInode (s : State P) (ip : Slot) (x y : Inode P) :
    (s.setInode ip x).setInode ip y = s.setInode ip y := by
  rw [setInode, setInode, setInode, Function.update_idem]

end State

instance : Locks (State P) Slot P where
  owner s l := (s.icache l).lock
  setOwner s l o := s.setInode l { s.icache l with lock := o }

/-- `bread`: the contents of a block. -/
def bread (b : ℕ) : M P Block := do return (← get).disk b

/-- `log_write`, after the buffer has been given its new contents. -/
def logWrite (b : ℕ) (data : Block) : M P Unit :=
  modify fun s => (s.setBlock b data).record (.logWrite b)

def beginOp : M P Unit := modify fun s => s.record .beginOp

def endOp : M P Unit := modify fun s => s.record .endOp

end Dave.Fs
