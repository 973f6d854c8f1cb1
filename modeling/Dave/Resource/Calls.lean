import Dave.Fs.State
import Dave.Lib.Run
import Dave.Memory.Paging
import Dave.Proc.Table

/-!
# The system calls that hand out memory and files

What a process holds besides its registers: its kernel stack, its address space and its open files.
The functions here are those of `file.c`, `pipe.c`, `proc.c`, `exec.c` and `sysfile.c` that create,
share and give up these resources. Each call runs from beginning to end; `kalloc`, `filealloc` and
`fdalloc` may fail at every call. What the file system returns to `open` and `exec` is an argument
of theirs.
-/

namespace Dave.Resource

open Memory
open Fs (nFile nOfile)
open Proc (Slot nproc initproc)

/-! ### State -/

inductive FileType where
  | none
  | pipe
  | inode
  deriving DecidableEq

/-- An open file (`struct file`); the page of a pipe stands for the pointer to it. -/
structure File where
  type : FileType
  ref : ℕ
  readable : Bool
  writable : Bool
  pipe : Frame

/-- Which ends of a pipe are open (`readopen` and `writeopen` of `struct pipe`). -/
structure Ends where
  readopen : Bool
  writeopen : Bool
  deriving DecidableEq

/-- The write end or the read end has been closed. -/
def Ends.close (e : Ends) : Bool → Ends
  | true => { e with writeopen := false }
  | false => { e with readopen := false }

inductive Life where
  | unused
  | embryo
  | live
  | zombie
  deriving DecidableEq

/-- A process (`struct proc`). -/
structure Process where
  state : Life
  parent : Option Slot
  kstack : Option Frame
  pgdir : Option PageDir
  sz : ℕ
  ofile : Fin nOfile → Option (Fin nFile)

/-- The state of the kernel: the allocator, the page table of the kernel and the stacks of the other
processors, the processes, the file table, and the pages that hold a pipe. -/
structure State where
  mem : Mem
  kpgdir : Option PageDir
  cpuStacks : List Frame
  proc : Slot → Process
  file : Fin nFile → File
  pipe : Frame → Option Ends

namespace State

variable (s : State)

def setProc (p : Slot) (x : Process) : State := { s with proc := Function.update s.proc p x }

def setFile (f : Fin nFile) (x : File) : State := { s with file := Function.update s.file f x }

def setPipe (pg : Frame) (x : Option Ends) : State :=
  { s with pipe := Function.update s.pipe pg x }

/-- Descriptor `fd` of process `p` replaced. -/
def setOfile (p : Slot) (fd : Fin nOfile) (o : Option (Fin nFile)) : State :=
  s.setProc p { s.proc p with ofile := Function.update (s.proc p).ofile fd o }

@[simp] theorem setProc_proc_self (p : Slot) (x : Process) : (s.setProc p x).proc p = x :=
  Function.update_self ..

@[simp] theorem setProc_setProc (p : Slot) (x y : Process) :
    (s.setProc p x).setProc p y = s.setProc p y := by
  simp [setProc]

theorem setProc_proc_of_ne {p q : Slot} (hq : q ≠ p) (x : Process) :
    (s.setProc p x).proc q = s.proc q := Function.update_of_ne hq ..

end State

abbrev K : Type → Type := StateT State (Except Panic)

/-- Code that uses only the allocator. -/
def onMem {α : Type} (c : M α) : K α := fun s =>
  match c s.mem with
  | .ok (a, m) => .ok (a, { s with mem := m })
  | .error e => .error e

def modifyProc (p : Slot) (f : Process → Process) : K Unit :=
  modify fun s => s.setProc p (f (s.proc p))

def modifyFile (f : Fin nFile) (g : File → File) : K Unit :=
  modify fun s => s.setFile f (g (s.file f))

/-! ### Files and pipes -/

def filealloc : K (Option (Fin nFile)) := do
  let s ← get
  match (List.finRange nFile).find? fun f => (s.file f).ref = 0 with
  | some f =>
    modifyFile f fun x => { x with ref := 1 }
    return some f
  | none => return none

def filedup (f : Fin nFile) : K Unit := do
  let s ← get
  if (s.file f).ref < 1 then throw .filedup
  modifyFile f fun x => { x with ref := x.ref + 1 }

/-- Close one end of the pipe in page `pg`, and free the page if this was the last one. -/
def pipeclose (L : Layout) (pg : Frame) (writable : Bool) : K Unit := do
  let s ← get
  match s.pipe pg with
  | none => throw .freedPipe
  | some e =>
    if (e.close writable).readopen = false ∧ (e.close writable).writeopen = false then
      modify fun s => s.setPipe pg none
      onMem (kfree L pg)
    else modify fun s => s.setPipe pg (some (e.close writable))

def fileclose (L : Layout) (f : Fin nFile) : K Unit := do
  let s ← get
  let ff := s.file f
  if ff.ref < 1 then throw .fileclose
  if 0 < ff.ref - 1 then modifyFile f fun x => { x with ref := x.ref - 1 }
  else
    modifyFile f fun x => { x with ref := 0, type := .none }
    match ff.type with
    | .pipe => pipeclose L ff.pipe ff.writable
    | .inode => return () -- `iput(ff.ip)`
    | .none => return ()

/-- The assignments of `pipealloc`: page `pg` becomes a pipe with both ends open, `f0` its read end
and `f1` its write end. -/
def State.makePipe (s : State) (pg : Frame) (f0 f1 : Fin nFile) : State :=
  ((s.setPipe pg (some ⟨true, true⟩)).setFile f0
    { s.file f0 with type := .pipe, readable := true, writable := false, pipe := pg }).setFile f1
    { s.file f1 with type := .pipe, readable := false, writable := true, pipe := pg }

/-- Allocate a pipe and the files for its two ends. -/
def pipealloc (L : Layout) : K (Option (Fin nFile × Fin nFile)) := do
  match ← filealloc with
  | none => return none
  | some f0 =>
    match ← filealloc with
    | none =>
      fileclose L f0
      return none
    | some f1 =>
      match ← onMem kalloc with
      | none =>
        fileclose L f0
        fileclose L f1
        return none
      | some pg =>
        modify fun s => s.makePipe pg f0 f1
        return some (f0, f1)

/-- The descriptor `fd` of process `me` and its file. -/
def argfd (me : Slot) (fd : ℤ) : K (Option (Fin nOfile × Fin nFile)) := do
  let s ← get
  if h : 0 ≤ fd ∧ fd < nOfile then
    let i : Fin nOfile := ⟨fd.toNat, Fs.toNat_lt_nOfile h⟩
    return ((s.proc me).ofile i).map fun f => (i, f)
  else return none

/-- Set descriptor `fd` of process `p`. -/
def setOfile (p : Slot) (fd : Fin nOfile) (o : Option (Fin nFile)) : K Unit :=
  modify fun s => s.setOfile p fd o

def fdalloc (me : Slot) (f : Fin nFile) : K (Option (Fin nOfile)) := do
  let s ← get
  match (List.finRange nOfile).find? fun fd => (s.proc me).ofile fd = none with
  | some fd =>
    setOfile me fd (some f)
    return some fd
  | none => return none

def sysDup (me : Slot) (fd : ℤ) : K Unit := do
  match ← argfd me fd with
  | none => return ()
  | some (_, f) =>
    match ← fdalloc me f with
    | none => return ()
    | some _ => filedup f

def sysClose (L : Layout) (me : Slot) (fd : ℤ) : K Unit := do
  match ← argfd me fd with
  | none => return ()
  | some (i, f) =>
    setOfile me i none
    fileclose L f

/-- `open`; `found` tells whether the file system has found or created the file and it may be opened
with mode `omode`. -/
def sysOpen (L : Layout) (me : Slot) (found : Bool) (omode : Word) : K Unit := do
  if found = false then return ()
  match ← filealloc with
  | none => return ()
  | some f =>
    match ← fdalloc me f with
    | none => fileclose L f
    | some _ =>
      modifyFile f fun x =>
        { x with
          type := .inode
          readable := omode &&& 1 = 0
          writable := omode &&& 1 ≠ 0 ∨ omode &&& 2 ≠ 0 }

def sysPipe (L : Layout) (me : Slot) : K Unit := do
  match ← pipealloc L with
  | none => return ()
  | some (rf, wf) =>
    match ← fdalloc me rf with
    | none =>
      fileclose L rf
      fileclose L wf
    | some fd0 =>
      match ← fdalloc me wf with
      | none =>
        setOfile me fd0 none
        fileclose L rf
        fileclose L wf
      | some _ => return ()

/-! ### Processes -/

/-- Look for an unused process and allocate its kernel stack. -/
def allocproc : K (Option Slot) := do
  let s ← get
  match (List.finRange nproc).find? fun p => (s.proc p).state = .unused with
  | none => return none
  | some p =>
    modifyProc p fun x => { x with state := .embryo }
    match ← onMem kalloc with
    | none =>
      modifyProc p fun x => { x with kstack := none, state := .unused }
      return none
    | some f =>
      modifyProc p fun x => { x with kstack := some f }
      return some p

/-- Duplicate the descriptors of process `me` for process `np`. -/
def dupFiles (me np : Slot) : List (Fin nOfile) → K Unit
  | [] => return ()
  | fd :: fds => do
    let s ← get
    match (s.proc me).ofile fd with
    | some f =>
      filedup f
      setOfile np fd (some f)
    | none => pure ()
    dupFiles me np fds

/-- Create a process that copies process `me`. Returns the new process. -/
def fork (L : Layout) (me : Slot) : K (Option Slot) := do
  match ← allocproc with
  | none => return none
  | some np =>
    let s ← get
    match (s.proc me).pgdir with
    | none => throw .nullPointer
    | some src =>
      match ← onMem (copyuvm L src (s.proc me).sz) with
      | none =>
        match (s.proc np).kstack with
        | none => throw .kfree
        | some f => onMem (kfree L f)
        modifyProc np fun x => { x with pgdir := none, kstack := none, state := .unused }
        return none
      | some d =>
        modifyProc np fun x =>
          { x with pgdir := some d, sz := (s.proc me).sz, parent := some me }
        dupFiles me np (List.finRange nOfile)
        modifyProc np fun x => { x with state := .live }
        return some np

/-- Close the descriptors of process `me`. -/
def closeFiles (L : Layout) (me : Slot) : List (Fin nOfile) → K Unit
  | [] => return ()
  | fd :: fds => do
    let s ← get
    match (s.proc me).ofile fd with
    | some f =>
      fileclose L f
      setOfile me fd none
    | none => pure ()
    closeFiles L me fds

/-- Pass the abandoned children of process `me` to init. -/
def State.reparent (s : State) (me : Slot) : State :=
  { s with
    proc := fun p => if (s.proc p).parent = some me then { s.proc p with parent := some initproc }
      else s.proc p }

def exit (L : Layout) (me : Slot) : K Unit := do
  if me = initproc then throw .initExiting
  closeFiles L me (List.finRange nOfile)
  modify fun s => s.reparent me
  modifyProc me fun x => { x with state := .zombie }

/-- Wait for a child of process `me` to exit. Returns the child, or nothing when there is none or
the process has to sleep. -/
def wait (L : Layout) (me : Slot) : K (Option Slot) := do
  let s ← get
  match (List.finRange nproc).find? fun p =>
      (s.proc p).parent = some me ∧ (s.proc p).state = .zombie with
  | none => return none
  | some p =>
    match (s.proc p).kstack with
    | none => throw .kfree
    | some f => onMem (kfree L f)
    modifyProc p fun x => { x with kstack := none }
    match (s.proc p).pgdir with
    | none => throw .freevmNoPgdir
    | some d => onMem (freevm L d)
    modifyProc p fun x => { x with parent := none, state := .unused }
    return some p

def growproc (L : Layout) (me : Slot) (n : ℤ) : K Unit := do
  let s ← get
  match (s.proc me).pgdir with
  | none => throw .nullPointer
  | some d =>
    let (_, sz, d) ← onMem (Memory.growproc L d (s.proc me).sz n)
    modifyProc me fun x => { x with pgdir := some d, sz := sz }

/-! ### Loading programs -/

/-- A program header as `exec` reads it. -/
structure ProgHdr where
  /-- the header could be read -/
  read : Bool
  /-- `ph.type == ELF_PROG_LOAD` -/
  load : Bool
  memsz : Word
  filesz : Word
  vaddr : Word
  /-- which pages of the segment can be read -/
  readi : ℕ → Bool

/-- What `exec` is given and finds in the file. -/
structure Image where
  /-- the file exists and has an ELF header -/
  elf : Bool
  phdrs : List ProgHdr
  /-- for each argument, whether it could be copied to the stack -/
  args : List Bool
  /-- whether the argument vector could be copied to the stack -/
  argv : Bool

abbrev maxArg : ℕ := 32

/-- The loop of `exec` over the program headers. Returns whether this succeeded, the size and the
directory. -/
def loadSegments (L : Layout) (d : PageDir) (sz : ℕ) : List ProgHdr → M (Bool × ℕ × PageDir)
  | [] => return (true, sz, d)
  | ph :: phs => do
    if ph.read = false then return (false, sz, d)
    if ph.load = false then loadSegments L d sz phs
    else if ph.memsz < ph.filesz then return (false, sz, d)
    else if ph.vaddr + ph.memsz < ph.vaddr then return (false, sz, d)
    else
      let (r, d) ← allocuvm L d sz (ph.vaddr + ph.memsz).toNat
      if r = 0 then return (false, r, d)
      if ph.vaddr.toNat % pgSize ≠ 0 then return (false, r, d)
      if ← loaduvm d ph.readi (ph.vaddr.toNat / pgSize) (pages ph.filesz.toNat) then
        loadSegments L d r phs
      else return (false, r, d)

/-- The part of `exec` after the new page directory has been made. Returns whether this succeeded,
the size and the directory. -/
def loadImage (L : Layout) (d : PageDir) (img : Image) : M (Bool × ℕ × PageDir) := do
  let (ok, sz, d) ← loadSegments L d 0 img.phdrs
  if ok = false then return (false, sz, d)
  -- two pages at the next page boundary, the first one inaccessible
  let sz := pages sz * pgSize
  let (r, d) ← allocuvm L d sz (sz + 2 * pgSize)
  if r = 0 then return (false, r, d)
  let d ← clearpteu d (r / pgSize - 2)
  let ok := img.args.length ≤ maxArg ∧ img.args.all id ∧ img.argv
  return (ok, r, d)

/-- Replace the address space of process `me` by that of a program. -/
def exec (L : Layout) (me : Slot) (img : Image) : K Unit := do
  if img.elf = false then return ()
  match ← onMem (setupkvm L) with
  | none => return ()
  | some d =>
    let (ok, sz, d) ← onMem (loadImage L d img)
    if ok = false then onMem (freevm L d)
    else
      let s ← get
      match (s.proc me).pgdir with
      | none => throw .freevmNoPgdir
      | some old =>
        modifyProc me fun x => { x with pgdir := some d, sz := sz }
        onMem (freevm L old)

/-! ### Booting -/

def userinit (L : Layout) : K Unit := do
  match ← allocproc with
  | none => throw .nullPointer
  | some p =>
    match ← onMem (setupkvm L) with
    | none => throw .userinit
    | some d =>
      match ← onMem kalloc with
      | none => throw .nullPointer
      | some mem =>
        -- `inituvm` ignores whether the page could be mapped
        let (_, d) ← onMem (mappages d 0 mem.val ⟨true, true, 0⟩ 1)
        modifyProc p fun x => { x with pgdir := some d, sz := pgSize, state := .live }

/-- The stacks of `n` other processors. -/
def startothers : ℕ → K Unit
  | 0 => return ()
  | n + 1 => do
    match ← onMem kalloc with
    | none => throw .nullPointer
    | some f => modify fun s => { s with cpuStacks := f :: s.cpuStacks }
    startothers n

/-- The frame at 4 MB. -/
@[irreducible] def fourMB : ℕ := 1024

/-- Hand the memory below 4 MB to the allocator. -/
def kinit1 (L : Layout) : M Unit := freerange L L.first (fourMB - L.first)

/-- Hand the memory from 4 MB on to the allocator. -/
def kinit2 (L : Layout) : M Unit := freerange L fourMB (L.phystop - fourMB)

/-- `main`: the memory below 4 MB, the page table of the kernel, the other processors, the rest of
the memory, and the first process. -/
def main (L : Layout) (ncpu : ℕ) : K Unit := do
  onMem (kinit1 L)
  match ← onMem (setupkvm L) with
  | none => throw .nullPointer
  | some d => modify fun s => { s with kpgdir := some d }
  startothers (ncpu - 1)
  onMem (kinit2 L)
  userinit L

/-- The state before `main`, when `refuse` tells which calls of `kalloc` will fail. -/
def reset (refuse : ℕ → Bool) : State where
  mem := ⟨[], refuse, 0, false, false, fun _ _ => 0⟩
  kpgdir := none
  cpuStacks := []
  proc _ := ⟨.unused, none, none, none, 0, fun _ => none⟩
  file _ := ⟨.none, 0, false, false, 0⟩
  pipe _ := none

/-- The machine has booted to state `s` and no call of `kalloc` has failed so far. -/
def Boots (L : Layout) (s : State) : Prop :=
  ∃ refuse ncpu, main L ncpu (reset refuse) = .ok ((), s) ∧ s.mem.failed = false

/-! ### Runs -/

inductive Call where
  | open (found : Bool) (omode : Word)
  | dup (fd : ℤ)
  | pipe
  | close (fd : ℤ)
  | fork
  | exec (img : Image)
  | sbrk (n : ℤ)
  | exit
  | wait

/-- A call by process `me`. -/
def Call.run (L : Layout) (me : Slot) : Call → K Unit
  | .open found omode => sysOpen L me found omode
  | .dup fd => sysDup me fd
  | .pipe => sysPipe L me
  | .close fd => sysClose L me fd
  | .fork => do let _ ← Resource.fork L me
  | .exec img => Resource.exec L me img
  | .sbrk n => growproc L me n
  | .exit => Resource.exit L me
  | .wait => do let _ ← Resource.wait L me

/-- The state after a call by a process, if the process runs and the call does not panic. -/
def step (L : Layout) (s : State) (e : Slot × Call) : Option State :=
  if (s.proc e.1).state = .live then
    match e.2.run L e.1 s with
    | .ok (_, s') => some s'
    | .error _ => none
  else none

abbrev Runs (L : Layout) : State → List (Slot × Call) → State → Prop := Run (step L) anyEvent

end Dave.Resource
