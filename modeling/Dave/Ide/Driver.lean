import Dave.Bcache.Code
import Dave.Lib.Linked

/-!
# The IDE driver

The code of `ide.c`, and the controller as far as the driver sees it. Processes call `iderw` for
buffers they have locked; a call appends the buffer to the queue, starts the disk if the queue was
empty, and sleeps until the interrupt handler has served the buffer. All this is done under
`idelock`, so that a step of a process is the code from one `acquire` or `sleep` to the next `sleep`
or `release`, and the interrupt handler is one step.

A block is one sector. The controller does what the command that has been started says, and then
interrupts once; it reports no errors.

The state records the calls in the order in which they appended their buffers, and the contents of
the buffers that have been served.
-/

namespace Dave.Ide

open Bcache (Buf nBuf)

abbrev fsSize : ℕ := 4000

inductive Panic where
  /-- `iderw: buf not locked` -/
  | iderwNotLocked
  /-- `iderw: nothing to do` -/
  | iderwNothing
  /-- `iderw: ide disk 1 not present` -/
  | iderwDisk
  /-- `incorrect blockno` -/
  | incorrectBlockno
  deriving DecidableEq

/-! ### State -/

/-- A call of `iderw`: the process, the buffer, and what the buffer contained. -/
structure Request (P : Type) where
  proc : P
  buf : Fin nBuf
  content : Buf P

/-- What a process is doing: it runs, or it is in the loop of `iderw` for buffer `i`, in call number
`k`, asleep or about to test the flags again. -/
inductive Loc where
  | run
  | wait (i : Fin nBuf) (k : ℕ) (asleep : Bool)
  deriving DecidableEq

/-- The place of a process after `wakeup(b)` for buffer `i`. -/
def Loc.wakeup (i : Fin nBuf) : Loc → Loc
  | .run => .run
  | .wait j k asleep => .wait j k (if j = i then false else asleep)

/-- The registers of the controller for a command: the number of sectors, the number of the first
one in four parts, the last of which also has the drive. -/
structure Regs where
  count : Byte
  lba0 : Byte
  lba1 : Byte
  lba2 : Byte
  device : Byte

/-- The number of the first sector. -/
def Regs.sector (r : Regs) : Word :=
  r.lba0.setWidth 32 ||| (r.lba1.setWidth 32 <<< 8) ||| (r.lba2.setWidth 32 <<< 16) |||
    ((r.device &&& 0x0f).setWidth 32 <<< 24)

def Regs.drive (r : Regs) : Bool := r.device.getLsbD 4

/-- The state of the buffers, the driver, the controller and the processes, and the history. -/
structure State (P : Type) where
  buf : Fin nBuf → Buf P
  qnext : Fin nBuf → Option (Fin nBuf)
  idequeue : Option (Fin nBuf)
  havedisk1 : Bool
  /-- the sectors of the two drives -/
  disk : Bool → Word → Block
  /-- the sector that the last read command has read -/
  port : Block
  /-- a command has been started and the interrupt has not come yet -/
  busy : Bool
  loc : P → Loc
  calls : List (Request P)
  results : List (Buf P)

variable {P : Type} [DecidableEq P]

namespace State

variable (s : State P)

@[simps]
def setBuf (i : Fin nBuf) (b : Buf P) : State P := { s with buf := Function.update s.buf i b }

@[simps]
def setLoc (p : P) (l : Loc) : State P := { s with loc := Function.update s.loc p l }

/-- The controller begins to execute a command: it writes `data` to the sector, or reads the
sector. -/
@[simps]
def command (r : Regs) (data : Option Block) : State P :=
  { s with
    busy := true
    disk := data.elim s.disk fun b =>
      Function.update s.disk r.drive (Function.update (s.disk r.drive) r.sector b)
    port := data.elim (s.disk r.drive r.sector) fun _ => s.port }

end State

/-! ### Code -/

abbrev D (P : Type) : Type → Type := StateT (State P) (Except Panic)

def modifyBuf (i : Fin nBuf) (f : Buf P → Buf P) : D P Unit :=
  modify fun s => s.setBuf i (f (s.buf i))

/-- What `idestart` writes to the registers for block `sector` of device `dev`. -/
def regs (dev sector : Word) : Regs where
  count := 1
  lba0 := (sector &&& 0xff).setWidth 8
  lba1 := ((sector >>> 8) &&& 0xff).setWidth 8
  lba2 := ((sector >>> 16) &&& 0xff).setWidth 8
  device := (0xe0 ||| ((dev &&& 1) <<< 4) ||| ((sector >>> 24) &&& 0x0f)).setWidth 8

/-- Start the request for buffer `i`. -/
def idestart (i : Fin nBuf) : D P Unit := do
  let b := (← get).buf i
  if fsSize ≤ b.blockno.toNat then throw .incorrectBlockno
  modify fun s => s.command (regs b.dev b.blockno) (if b.dirty then some b.data else none)

/-- `wakeup(b)` for buffer `i`. -/
def wakeup (i : Fin nBuf) : D P Unit :=
  modify fun s => { s with loc := fun p => (s.loc p).wakeup i }

/-- Start disk on next buf in queue, if there is one. -/
def startNext : Option (Fin nBuf) → D P Unit
  | none => pure ()
  | some j => idestart j

def ideintr : D P Unit := do
  match (← get).idequeue with
  | none => return
  | some i =>
    modify fun s => { s with idequeue := s.qnext i }
    -- Read data if needed.
    let s ← get
    if (s.buf i).dirty = false then
      modifyBuf i fun b => { b with data := s.port }
    -- Wake process waiting for this buf.
    modifyBuf i fun b => { b with valid := true, dirty := false }
    wakeup i
    modify fun s => { s with results := s.results ++ [s.buf i] }
    startNext (← get).idequeue

/-- The test of the loop of `iderw`: process `me` returns, or sleeps. -/
def test (me : P) (i : Fin nBuf) (k : ℕ) : D P Unit := do
  let b := (← get).buf i
  if b.valid = true ∧ b.dirty = false then modify fun s => s.setLoc me .run
  else modify fun s => s.setLoc me (.wait i k true)

/-- Append buffer `i` to the queue. -/
def enqueue (i : Fin nBuf) : D P Unit :=
  modify fun s =>
    let (head, next) := Linked.append nBuf s.idequeue s.qnext i
    { s with idequeue := head, qnext := next }

/-- Sync buffer `i` with the disk, up to where the process returns or sleeps. -/
def iderw (me : P) (i : Fin nBuf) : D P Unit := do
  let s ← get
  let b := s.buf i
  if b.lock ≠ some me then throw .iderwNotLocked
  if b.valid = true ∧ b.dirty = false then throw .iderwNothing
  if b.dev ≠ 0 ∧ s.havedisk1 = false then throw .iderwDisk
  enqueue i
  modify fun s => { s with calls := s.calls ++ [⟨me, i, b⟩] }
  -- Start disk if necessary.
  if (← get).idequeue = some i then idestart i
  -- Wait for request to finish.
  test me i s.calls.length

/-! ### Events -/

/-- What can happen: a process takes the lock of a buffer, gives it back, changes a buffer that is
locked by it or by nobody, calls `iderw`, is woken up by something else than the interrupt handler,
or goes on in the loop of `iderw`; or the controller interrupts. -/
inductive Event (P : Type) where
  | acquiresleep (p : P) (i : Fin nBuf)
  | releasesleep (p : P) (i : Fin nBuf)
  | change (p : P) (i : Fin nBuf) (b : Buf P)
  | iderw (p : P) (i : Fin nBuf)
  | wake (p : P)
  | resume (p : P)
  | interrupt

/-- The state after code that does not panic. -/
def exec (c : D P Unit) (s : State P) : Option (State P) :=
  match c s with
  | .ok (_, s') => some s'
  | .error _ => none

/-- The state after an event, if it can happen. -/
def step (s : State P) : Event P → Option (State P)
  | .acquiresleep p i =>
    if s.loc p = .run ∧ (s.buf i).lock = none then
      some (s.setBuf i { s.buf i with lock := some p })
    else none
  | .releasesleep p i =>
    if s.loc p = .run ∧ (s.buf i).lock = some p then
      some (s.setBuf i { s.buf i with lock := none })
    else none
  | .change p i b =>
    if s.loc p = .run ∧ ((s.buf i).lock = none ∨ (s.buf i).lock = some p) then
      some (s.setBuf i { b with lock := (s.buf i).lock })
    else none
  | .iderw p i => if s.loc p = .run then exec (Ide.iderw p i) s else none
  | .wake p =>
    match s.loc p with
    | .wait i k _ => some (s.setLoc p (.wait i k false))
    | .run => none
  | .resume p =>
    match s.loc p with
    | .wait i k false => exec (test p i k) s
    | _ => none
  | .interrupt => if s.busy then exec ideintr { s with busy := false } else none

/-- The calls of `iderw` that are considered, for a disk with `disksize` blocks: they are for blocks
of device 1 that both drivers accept, in buffers that the caller has locked. -/
def Admitted (disksize : ℕ) (s : State P) : Event P → Prop
  | .iderw p i => (s.buf i).lock = some p ∧ (s.buf i).dev = 1 ∧
      (s.buf i).blockno.toNat < fsSize ∧ (s.buf i).blockno.toNat < disksize
  | _ => True

abbrev Runs (disksize : ℕ) : State P → List (Event P) → State P → Prop :=
  Run step (Admitted disksize)

/-- Nothing has been asked of the driver yet. Disk 1 is present. -/
structure Initial (s : State P) : Prop where
  idequeue : s.idequeue = none
  havedisk1 : s.havedisk1 = true
  busy : s.busy = false
  loc : ∀ p, s.loc p = .run
  calls : s.calls = []
  results : s.results = []

/-! ### The memory disk -/

/-- A call of `iderw` of `memide.c`. Returns the contents of the buffer afterwards and the state of
the disk. -/
def memCall (t : Bcache.State P) (r : Request P) :
    Except Bcache.Panic (Buf P × Bcache.State P) := do
  let (write, t) ← Bcache.iderw r.proc r.buf (t.setBuf r.buf r.content)
  let (_, t) ← Bcache.iderwCopy r.buf write t
  return (t.buf r.buf, t)

/-- The calls one after the other. -/
def memRun (t : Bcache.State P) : List (Request P) →
    Except Bcache.Panic (List (Buf P) × Bcache.State P)
  | [] => .ok ([], t)
  | r :: rs => do
    let (b, t) ← memCall t r
    let (bs, t) ← memRun t rs
    return (b :: bs, t)

end Dave.Ide
