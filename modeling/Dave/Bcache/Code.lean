import Dave.Lib.Prog
import Dave.Lib.Run
import Dave.Logging.Machine
import Mathlib.Tactic.Simps.Basic

/-!
# The buffer cache

The code of `bio.c`, `log_write` and the memory disk `memide.c`, run by any number of processes. One
step of a process is a section under `bcache.lock`, taking or giving back the lock of a buffer, one
half of `iderw`, or a change of a buffer the process has locked. What the processes do between these
calls is arbitrary; in particular `write_log`, `write_head` and `install_trans` are sequences of
them, so that a commit is one of the things a process may do.

The state also records the history the properties speak of: the contents that the latest `log_write`
or `bwrite` of each block stored (`stored`), and which buffers have been modified since
(`unsaved`). A process does not release a buffer it has modified before it has passed it to
`log_write` or `bwrite`.
-/

namespace Dave.Bcache

abbrev nBuf : ℕ := maxOpBlocks * 3

instance : NeZero nBuf := ⟨by decide⟩

/-- `ROOTDEV`, the memory disk. -/
abbrev disk1 : Word := 1

inductive Panic where
  /-- `bget: no buffers` -/
  | bgetNoBuffers
  /-- `bwrite` -/
  | bwrite
  /-- `brelse` -/
  | brelse
  /-- `iderw: buf not locked` -/
  | iderwNotLocked
  /-- `iderw: nothing to do` -/
  | iderwNothing
  /-- `iderw: request not for disk 1` -/
  | iderwDisk
  /-- `iderw: block out of range` -/
  | iderwRange
  /-- `too big a transaction` -/
  | logTooBig
  /-- `log_write outside of trans` -/
  | logOutside
  deriving DecidableEq

/-! ### State -/

/-- A buffer (`struct buf`); `lock` is the process that has its sleeping lock. -/
structure Buf (P : Type) where
  valid : Bool
  dirty : Bool
  dev : Word
  blockno : Word
  lock : Option P
  refcnt : ℕ
  data : Block

/-- Which block a buffer is for. -/
def Buf.ident {P : Type} (b : Buf P) : Word × Word := (b.dev, b.blockno)

/-- How far a process is in a call for a buffer. -/
inductive Stage where
  /-- in `bread`, waiting for the lock of the buffer -/
  | acquire
  /-- in `bread`, about to test `B_VALID` -/
  | test
  /-- in `iderw`, about to copy to or from the disk -/
  | copy (write : Bool)
  /-- in `brelse`, after the lock has been given back -/
  | release
  deriving DecidableEq

/-- What a process is doing: it runs, or it is in a call for buffer `i`, which for `bread` is for
the device and block `req`. -/
inductive Loc where
  | run
  | busy (i : Fin nBuf) (req : Option (Word × Word)) (stage : Stage)
  deriving DecidableEq

/-- The state of the cache, the disk and the processes, and the history. -/
structure State (P : Type) where
  buf : Fin nBuf → Buf P
  /-- the buffers in the order of the list from `bcache.head.next` on -/
  order : List (Fin nBuf)
  disk : Word → Block
  disksize : ℕ
  log : Logging.Log
  loc : P → Loc
  /-- the buffer has been modified, but not yet passed to `log_write` or `bwrite` -/
  unsaved : Fin nBuf → Bool
  /-- what the latest `log_write` or `bwrite` of the block stored, or what is on the disk -/
  stored : Word → Block

variable {P : Type} [DecidableEq P]

namespace State

variable (s : State P)

@[simps]
def setBuf (i : Fin nBuf) (b : Buf P) : State P := { s with buf := Function.update s.buf i b }

@[simps]
def setLoc (p : P) (l : Loc) : State P := { s with loc := Function.update s.loc p l }

/-- Buffer `i` is saved: its data are what is stored in its block. -/
@[simps]
def save (i : Fin nBuf) : State P :=
  { s with
    unsaved := Function.update s.unsaved i false
    stored := Function.update s.stored (s.buf i).blockno (s.buf i).data }

end State

/-! ### Code -/

abbrev C (P : Type) : Type → Type := StateT (State P) (Except Panic)

def modifyBuf (i : Fin nBuf) (f : Buf P → Buf P) : C P Unit :=
  modify fun s => s.setBuf i (f (s.buf i))

/-- The section of `bget` under `bcache.lock`: look for the block, or recycle a buffer. -/
def bget (dev blockno : Word) : C P (Fin nBuf) := do
  let s ← get
  match s.order.find? fun i => (s.buf i).dev = dev ∧ (s.buf i).blockno = blockno with
  | some i =>
    modifyBuf i fun b => { b with refcnt := b.refcnt + 1 }
    return i
  | none =>
    match s.order.reverse.find? fun i => (s.buf i).refcnt = 0 ∧ (s.buf i).dirty = false with
    | some i =>
      modifyBuf i fun b =>
        { b with dev := dev, blockno := blockno, valid := false, dirty := false, refcnt := 1 }
      return i
    | none => throw .bgetNoBuffers

/-- The tests of `iderw` by process `me`, and clearing `B_DIRTY`. Returns whether the buffer is
written to the disk. -/
def iderw (me : P) (i : Fin nBuf) : C P Bool := do
  let s ← get
  let b := s.buf i
  if b.lock ≠ some me then throw .iderwNotLocked
  if b.valid = true ∧ b.dirty = false then throw .iderwNothing
  if b.dev ≠ disk1 then throw .iderwDisk
  if s.disksize ≤ b.blockno.toNat then throw .iderwRange
  modifyBuf i fun b => { b with dirty := false }
  return b.dirty

/-- The rest of `iderw`: copy and set `B_VALID`. -/
def iderwCopy (i : Fin nBuf) (write : Bool) : C P Unit := do
  let s ← get
  let b := s.buf i
  if write then modify fun s => { s with disk := Function.update s.disk b.blockno b.data }
  else modifyBuf i fun x => { x with data := s.disk b.blockno }
  modifyBuf i fun x => { x with valid := true }

/-- `bwrite` up to the copy. -/
def bwrite (me : P) (i : Fin nBuf) : C P Bool := do
  let s ← get
  if (s.buf i).lock ≠ some me then throw .bwrite
  modify fun s => s.save i
  modifyBuf i fun b => { b with dirty := true }
  iderw me i

/-- Record the block of buffer `i` in the log and pin the buffer. -/
def logWrite (i : Fin nBuf) : C P Unit := do
  let s ← get
  if s.log.lh.length ≥ logSize ∨ s.log.lh.length ≥ s.log.size - 1 then throw .logTooBig
  if s.log.outstanding < 1 then throw .logOutside
  modify fun s => { s with
    log := { s.log with lh := Logging.absorb s.log.lh (s.buf i).blockno } }
  modify fun s => s.save i
  modifyBuf i fun b => { b with dirty := true }

/-- `brelse` up to giving back the lock. -/
def brelse (me : P) (i : Fin nBuf) : C P Unit := do
  let s ← get
  if (s.buf i).lock ≠ some me then throw .brelse
  modifyBuf i fun b => { b with lock := none }

/-- The section of `brelse` under `bcache.lock`: drop the reference, and move the buffer to the head
of the list if it was the last one. -/
def brelseDrop (i : Fin nBuf) : C P Unit := do
  modifyBuf i fun b => { b with refcnt := b.refcnt - 1 }
  let s ← get
  if (s.buf i).refcnt = 0 then
    modify fun s => { s with order := i :: s.order.erase i }

/-! ### Steps -/

inductive Act where
  /-- call `bread` -/
  | bread (dev blockno : Word)
  /-- get the lock in `acquiresleep` -/
  | acquiresleep
  /-- test `B_VALID` in `bread` -/
  | test
  /-- copy in `iderw` -/
  | copy
  /-- modify the data of a buffer in place -/
  | modify (i : Fin nBuf) (data : Block)
  | logWrite (i : Fin nBuf)
  | bwrite (i : Fin nBuf)
  | brelse (i : Fin nBuf)
  /-- drop the reference in `brelse` -/
  | drop
  /-- change `struct log` in `begin_op`, `end_op` or `commit` -/
  | setLog (log : Logging.Log)

/-- The state after code that does not panic. -/
def exec (c : C P Unit) (s : State P) : Option (State P) :=
  match c s with
  | .ok (_, s') => some s'
  | .error _ => none

/-- The code of an action of process `p`, if the process is where it can do it. A process modifies
only buffers it has locked. -/
def code (p : P) (s : State P) : Loc → Act → Option (C P Unit)
  | .run, .bread dev blockno => some do
    let i ← bget dev blockno
    modify fun s => s.setLoc p (.busy i (some (dev, blockno)) .acquire)
  | .busy i req .acquire, .acquiresleep =>
    if (s.buf i).lock = none then some do
      modifyBuf i fun b => { b with lock := some p }
      modify fun s => s.setLoc p (.busy i req .test)
    else none
  | .busy i req .test, .test =>
    if (s.buf i).valid then some (modify fun s => s.setLoc p .run)
    else some do
      let write ← iderw p i
      modify fun s => s.setLoc p (.busy i req (.copy write))
  | .busy i _ (.copy write), .copy => some do
    iderwCopy i write
    modify fun s => s.setLoc p .run
  | .run, .modify i data =>
    if (s.buf i).lock = some p then some do
      modifyBuf i fun b => { b with data := data }
      modify fun s => { s with unsaved := Function.update s.unsaved i true }
    else none
  | .run, .logWrite i => if (s.buf i).lock = some p then some (logWrite i) else none
  | .run, .bwrite i => some do
    let write ← bwrite p i
    modify fun s => s.setLoc p (.busy i none (.copy write))
  | .run, .brelse i =>
    if s.unsaved i = false then some do
      brelse p i
      modify fun s => s.setLoc p (.busy i none .release)
    else none
  | .busy i _ .release, .drop => some do
    brelseDrop i
    modify fun s => s.setLoc p .run
  | .run, .setLog log => some (modify fun s => { s with log := log })
  | _, _ => none

/-- The state after an action of a process. -/
def step (s : State P) (e : P × Act) : Option (State P) :=
  (code e.1 s (s.loc e.1) e.2).bind fun c => exec c s

abbrev Runs : State P → List (P × Act) → State P → Prop := Run step anyEvent

/-- The state after `binit`: nothing is cached, and all buffers are for block 0 of device 0. -/
def init (disk : Word → Block) (disksize : ℕ) (log : Logging.Log) : State P where
  buf _ := ⟨false, false, 0, 0, none, 0, 0⟩
  order := (List.finRange nBuf).reverse
  disk := disk
  disksize := disksize
  log := log
  loc _ := .run
  unsaved _ := false
  stored := disk

end Dave.Bcache
