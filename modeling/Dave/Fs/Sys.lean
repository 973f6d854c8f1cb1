import Dave.Fs.Dir

/-!
# File descriptors and system calls

The file table (`file.c`), the system calls of `sysfile.c`, and what `fork`, `exit`, `wait` and
`exec` do to descriptors and current directories.

A string argument is `none` where `argstr` fails. Calls return an `int`.
-/

namespace Dave.Fs

variable {P : Type} [DecidableEq P]

/-! ### Files -/

def filealloc : M P (Option (Fin nFile)) := do
  let s ← get
  match (List.finRange nFile).find? fun f => (s.ftable f).ref = 0 with
  | some f =>
    modify fun s => s.setFile f { s.ftable f with ref := 1 }
    return some f
  | none => return none

def filedup (f : Fin nFile) : M P Unit := do
  if ((← get).ftable f).ref < 1 then
    throw .filedup
  modify fun s => s.setFile f { s.ftable f with ref := (s.ftable f).ref + 1 }

/-- The `ftable.lock` section of `fileclose`: the file as it was, if this was the last reference. -/
def filedrop (f : Fin nFile) : M P (Option File) := do
  let ff := (← get).ftable f
  if ff.ref < 1 then
    throw .fileclose
  if ff.ref - 1 > 0 then
    modify fun s => s.setFile f { ff with ref := ff.ref - 1 }
    return none
  else
    modify fun s => s.setFile f { ff with ref := 0, type := .none }
    return some ff

/-- Close a file: decrement the reference count, close when it reaches 0. -/
def fileclose (f : Fin nFile) : Kernel P Unit := do
  match ← .lift (filedrop f) with
  | none => return
  | some ff =>
    match ff.type with
    | .none => return
    | .inode =>
      .lift beginOp
      iput ff.ip
      .lift endOp

/-- Read from a file. The offset moves by what was read. -/
def fileread (me : P) (f : Fin nFile) (n : Word) (input : Option (List Byte)) :
    Kernel P (Option (List Byte)) := do
  let ff ← .lift do return (← get).ftable f
  if ff.readable = false then
    return none
  else
    match ff.type with
    | .none => .fail .fileread
    | .inode =>
      ilock ff.ip .ilock
      let off ← .lift do return ((← get).ftable f).off
      let r ← readi me ff.ip off n input
      .lift <| modify fun s =>
        s.setFile f { s.ftable f with
          off := (s.ftable f).off + BitVec.ofNat 32 (r.getD []).length }
      iunlock me ff.ip
      return r

/-- `((MAXOPBLOCKS-1-1-2) / 2) * 512`: the most bytes of one transaction of `filewrite`. -/
abbrev maxWrite : ℕ := ((maxOpBlocks - 1 - 1 - 2) / 2) * 512

/-- The loop of `filewrite`: whether all bytes were written. Each round writes at least one byte. -/
def filewriteLoop (me : P) (f : Fin nFile) : ℕ → List Byte → Kernel P Bool
  | 0, _ => return true
  | fuel + 1, src =>
    if src = [] then return true else do
      let src₁ := src.take maxWrite
      .lift beginOp
      let ip ← .lift do return ((← get).ftable f).ip
      ilock ip .ilock
      let off ← .lift do return ((← get).ftable f).off
      let r ← writei me ip src₁ off
      .lift <| modify fun s =>
        s.setFile f { s.ftable f with off := (s.ftable f).off + BitVec.ofNat 32 (r.getD 0) }
      iunlock me ip
      .lift endOp
      match r with
      | none => return false
      | some n =>
        if n ≠ src₁.length then .fail .shortFilewrite
        else filewriteLoop me f fuel (src.drop maxWrite)

/-- Write to a file, a few blocks at a time. -/
def filewrite (me : P) (f : Fin nFile) (src : List Byte) : Kernel P ℤ := do
  let ff ← .lift do return (← get).ftable f
  if ff.writable = false then
    return -1
  else
    match ff.type with
    | .none => .fail .filewrite
    | .inode => return if ← filewriteLoop me f src.length src then src.length else -1

/-! ### Descriptors -/

/-- `argfd`: the file of a descriptor. -/
def argfd (me : P) (fd : ℤ) : M P (Option (Fin nOfile × Fin nFile)) := do
  let pr := (← get).proc me
  if h : 0 ≤ fd ∧ fd < nOfile then
    let i : Fin nOfile := ⟨fd.toNat, toNat_lt_nOfile h⟩
    return (pr.ofile i).map fun f => (i, f)
  else
    return none

/-- `curproc->ofile[fd] = f`. -/
def setOfile (p : P) (fd : Fin nOfile) (f : Option (Fin nFile)) : M P Unit :=
  modify fun s => s.setProc p { s.proc p with ofile := Function.update (s.proc p).ofile fd f }

/-- Allocate a file descriptor for the given file. -/
def fdalloc (me : P) (f : Fin nFile) : M P (Option (Fin nOfile)) := do
  let pr := (← get).proc me
  match (List.finRange nOfile).find? fun fd => pr.ofile fd = none with
  | some fd =>
    setOfile me fd (some f)
    return some fd
  | none => return none

def sysDup (me : P) (fd : ℤ) : Kernel P ℤ := .lift do
  match ← argfd me fd with
  | none => return -1
  | some (_, f) =>
    match ← fdalloc me f with
    | none => return -1
    | some fd =>
      filedup f
      return fd

def sysRead (me : P) (fd : ℤ) (n : Word) (input : Option (List Byte)) : Kernel P ℤ := do
  match ← .lift (argfd me fd) with
  | none => return -1
  | some (_, f) =>
    match ← fileread me f n input with
    | none => return -1
    | some bs => return bs.length

def sysWrite (me : P) (fd : ℤ) (src : List Byte) : Kernel P ℤ := do
  match ← .lift (argfd me fd) with
  | none => return -1
  | some (_, f) => filewrite me f src

def sysClose (me : P) (fd : ℤ) : Kernel P ℤ := do
  match ← .lift (argfd me fd) with
  | none => return -1
  | some (fd, f) =>
    .lift (setOfile me fd none)
    fileclose f
    return 0

/-- `sys_fstat`, less the copy of the fields to the user. -/
def sysFstat (me : P) (fd : ℤ) : Kernel P ℤ := do
  match ← .lift (argfd me fd) with
  | none => return -1
  | some (_, f) =>
    let ff ← .lift do return (← get).ftable f
    match ff.type with
    | .none => return -1
    | .inode =>
      ilock ff.ip .ilock
      iunlock me ff.ip
      return 0

/-! ### Names -/

/-- End the transaction and return `r`. -/
def endWith (r : ℤ) : Kernel P ℤ := do
  .lift endOp
  return r

/-- The label `bad` of `sys_link`: undo the new link count. -/
def linkBad (me : P) (ip : Slot) : Kernel P ℤ := do
  ilock ip .ilock
  .lift do
    modifyInode ip fun d => { d with nlink := d.nlink - 1 }
    iupdate ip
  iunlockput me ip
  endWith (-1)

/-- Create the path `new` as a link to the same inode as `old`. -/
def sysLink (me : P) (old new : Option Str) : Kernel P ℤ := do
  match old, new with
  | some old, some new =>
    .lift beginOp
    match ← namei me old with
    | none => endWith (-1)
    | some ip =>
      ilock ip .linkOld
      let i ← .lift do return (← get).icache ip
      if i.d.type = tDir then
        iunlockput me ip
        endWith (-1)
      else
        .lift do
          modifyInode ip fun d => { d with nlink := d.nlink + 1 }
          iupdate ip
        iunlock me ip
        match ← nameiparent me new with
        | none => linkBad me ip
        | some (dp, name) =>
          ilock dp (.linkParent name)
          let ddev ← .lift do return ((← get).icache dp).dev
          if ddev ≠ i.dev then
            iunlockput me dp
            linkBad me ip
          else if ← dirlink dp name i.inum then
            iunlockput me dp
            iput ip
            endWith 0
          else
            iunlockput me dp
            linkBad me ip
  | _, _ => return -1

abbrev dotName : Str := [dot]

abbrev dotdotName : Str := [dot, dot]

/-- The label `bad` of `sys_unlink`. -/
def unlinkBad (me : P) (dp : Slot) : Kernel P ℤ := do
  iunlockput me dp
  endWith (-1)

/-- `ip->type == T_DIR && !isdirempty(ip)`. -/
def isFull (ip : Slot) : M P Bool := do
  if ((← get).icache ip).d.type = tDir then
    return !(← isdirempty ip)
  else
    return false

/-- The part of `sys_unlink` that erases the entry at `off`, with both inodes locked. -/
def eraseEntry (dp ip : Slot) (off : ℕ) : M P Unit := do
  if (← writeData dp (List.replicate deSize 0) (BitVec.ofNat 32 off)) ≠ some deSize then
    throw .unlinkWritei
  if ((← get).icache ip).d.type = tDir then
    modifyInode dp fun d => { d with nlink := d.nlink - 1 }
    iupdate dp

def sysUnlink (me : P) (path : Option Str) : Kernel P ℤ := do
  match path with
  | none => return -1
  | some path =>
    .lift beginOp
    match ← nameiparent me path with
    | none => endWith (-1)
    | some (dp, name) =>
      ilock dp (.unlinkParent name)
      -- Cannot unlink "." or "..".
      if namecmp name dotName = 0 ∨ namecmp name dotdotName = 0 then
        unlinkBad me dp
      else
        match ← .lift (dirlookup dp name) with
        | none => unlinkBad me dp
        | some (ip, off) =>
          ilock ip .ilock
          let d ← .lift do return ((← get).icache ip).d
          if d.nlink.toInt < 1 then
            .fail .unlinkNlink
          else if ← .lift (isFull ip) then
            iunlockput me ip
            unlinkBad me dp
          else
            .lift (eraseEntry dp ip off)
            iunlockput me dp
            .lift do
              modifyInode ip fun d => { d with nlink := d.nlink - 1 }
              iupdate ip
            iunlockput me ip
            endWith 0

/-- The part of `create` that gives a new inode its fields. -/
def initInode (ip : Slot) (major minor : Short) : M P Unit := do
  modifyInode ip fun d => { d with major := major, minor := minor, nlink := 1 }
  iupdate ip

/-- The part of `create` that makes the entries `.` and `..` of a new directory. -/
def createDots (dp ip : Slot) : Kernel P Unit := do
  let (dinum, inum) ← .lift do
    modifyInode dp fun d => { d with nlink := d.nlink + 1 }
    iupdate dp
    let s ← get
    return ((s.icache dp).inum, (s.icache ip).inum)
  if ← dirlink ip dotName inum then
    if ← dirlink ip dotdotName dinum then
      return
    else
      .fail .createDots
  else
    .fail .createDots

/-- `create`: the inode, locked. -/
def create (me : P) (path : Str) (type major minor : Short) : Kernel P (Option Slot) := do
  match ← nameiparent me path with
  | none => return none
  | some (dp, name) =>
    ilock dp (.createParent name)
    match ← .lift (dirlookup dp name) with
    | some (ip, _) =>
      iunlockput me dp
      ilock ip .ilock
      let d ← .lift do return ((← get).icache ip).d
      if type = tFile ∧ d.type = tFile then
        return some ip
      else
        iunlockput me ip
        return none
    | none =>
      let ip ← .lift do ialloc ((← get).icache dp).dev type
      ilock ip .createNew
      .lift (initInode ip major minor)
      if type = tDir then
        createDots dp ip
      let inum ← .lift do return ((← get).icache ip).inum
      if ← dirlink dp name inum then
        iunlockput me dp
        return some ip
      else
        .fail .createDirlink

abbrev oWronly : Word := 0x001

abbrev oRdwr : Word := 0x002

abbrev oCreate : Word := 0x200

/-- The part of `sys_open` that finds or creates the inode and locks it. -/
def openInode (me : P) (path : Str) (omode : Word) : Kernel P (Option Slot) := do
  if omode &&& oCreate ≠ 0 then
    create me path tFile 0 0
  else
    match ← namei me path with
    | none => return none
    | some ip =>
      ilock ip .ilock
      let d ← .lift do return ((← get).icache ip).d
      if d.type = tDir ∧ omode ≠ 0 then
        iunlockput me ip
        return none
      else
        return some ip

def sysOpen (me : P) (path : Option Str) (omode : Word) : Kernel P ℤ := do
  match path with
  | none => return -1
  | some path =>
    .lift beginOp
    match ← openInode me path omode with
    | none => endWith (-1)
    | some ip =>
      match ← .lift filealloc with
      | none =>
        iunlockput me ip
        endWith (-1)
      | some f =>
        match ← .lift (fdalloc me f) with
        | none =>
          fileclose f
          iunlockput me ip
          endWith (-1)
        | some fd =>
          iunlock me ip
          .lift endOp
          .lift <| modify fun s => s.setFile f { s.ftable f with
            type := .inode
            ip := ip
            off := 0
            readable := omode &&& oWronly = 0
            writable := omode &&& oWronly ≠ 0 ∨ omode &&& oRdwr ≠ 0 }
          return fd

/-- `sys_mkdir` and `sys_mknod`: create an inode of the given type and put it. -/
def makeNode (me : P) (path : Option Str) (type major minor : Short) : Kernel P ℤ := do
  .lift beginOp
  match path with
  | none => endWith (-1)
  | some path =>
    match ← create me path type major minor with
    | none => endWith (-1)
    | some ip =>
      iunlockput me ip
      endWith 0

def sysMkdir (me : P) (path : Option Str) : Kernel P ℤ := makeNode me path tDir 0 0

/-- `sys_mknod`. The device numbers are cut to a `short`. -/
def sysMknod (me : P) (path : Option Str) (major minor : Word) : Kernel P ℤ :=
  makeNode me path tDev (major.setWidth 16) (minor.setWidth 16)

def sysChdir (me : P) (path : Option Str) : Kernel P ℤ := do
  .lift beginOp
  match path with
  | none => endWith (-1)
  | some path =>
    match ← namei me path with
    | none => endWith (-1)
    | some ip =>
      ilock ip .ilock
      let d ← .lift do return ((← get).icache ip).d
      if d.type ≠ tDir then
        iunlockput me ip
        endWith (-1)
      else
        iunlock me ip
        match ← .lift do return ((← get).proc me).cwd with
        | none => .fail .nullPointer
        | some cwd =>
          iput cwd
          .lift endOp
          .lift <| modify fun s => s.setProc me { s.proc me with cwd := some ip }
          return 0

/-! ### Processes -/

/-- The loop of `fork` that gives the child the open files. -/
def forkFiles (me np : P) : M P Unit :=
  (List.finRange nOfile).forM fun fd => do
    match ((← get).proc me).ofile fd with
    | none => return
    | some f =>
      filedup f
      setOfile np fd (some f)

/-- `fork`, as far as files go: `child` is the unused process that `allocproc` found, or nothing if
it found none or memory ran out. -/
def sysFork (me : P) (child : Option P) : Kernel P ℤ := .lift do
  match child with
  | none => return -1
  | some np =>
    if ((← get).proc np).state ≠ .unused then
      return -1
    else
      forkFiles me np
      match ((← get).proc me).cwd with
      | none => throw .nullPointer
      | some cwd =>
        let cwd ← idup cwd
        modify fun s => s.setProc np { s.proc np with cwd := some cwd, state := .live }
        return 0

/-- The loop of `exit` that closes all open files. -/
def closeAll (me : P) : List (Fin nOfile) → Kernel P Unit
  | [] => return
  | fd :: fds => do
    match ← .lift do return ((← get).proc me).ofile fd with
    | none => closeAll me fds
    | some f =>
      fileclose f
      .lift (setOfile me fd none)
      closeAll me fds

/-- `exit`, as far as files go. -/
def sysExit (me : P) : Kernel P ℤ := do
  closeAll me (List.finRange nOfile)
  .lift beginOp
  match ← .lift do return ((← get).proc me).cwd with
  | none => .fail .nullPointer
  | some cwd =>
    iput cwd
    .lift endOp
    .lift <| modify fun s => s.setProc me { s.proc me with cwd := none, state := .zombie }
    return 0

/-- `wait`, as far as files go: the process `q`, if it has exited, can be used again. -/
def sysWait (q : P) : Kernel P ℤ := .lift do
  if ((← get).proc q).state = .zombie then
    modify fun s => s.setProc q { s.proc q with state := .unused }
    return 0
  else
    return -1

/-- The reads of `exec`, in order, up to the first that fails. Each comes with what the console
delivers, in case the file is the console. -/
def execReads (me : P) (ip : Slot) : List (Word × Word × Option (List Byte)) → Kernel P Unit
  | [] => return
  | (off, n, input) :: reads => do
    match ← readi me ip off n input with
    | none => return
    | some _ => execReads me ip reads

/-- `exec`, as far as files go. Which parts of the file it reads depends on the contents of the file
and on memory; `reads` stands for them. -/
def sysExec (me : P) (path : Option Str) (reads : List (Word × Word × Option (List Byte))) :
    Kernel P ℤ := do
  match path with
  | none => return -1
  | some path =>
    .lift beginOp
    match ← namei me path with
    | none => endWith (-1)
    | some ip =>
      ilock ip .ilock
      execReads me ip reads
      iunlockput me ip
      endWith 0

/-! ### All calls -/

inductive Call (P : Type) where
  | link (old new : Option Str)
  | unlink (path : Option Str)
  | «open» (path : Option Str) (omode : Word)
  | mkdir (path : Option Str)
  | mknod (path : Option Str) (major minor : Word)
  | chdir (path : Option Str)
  | dup (fd : ℤ)
  | read (fd : ℤ) (n : Word) (input : Option (List Byte))
  | write (fd : ℤ) (src : List Byte)
  | close (fd : ℤ)
  | fstat (fd : ℤ)
  | fork (child : Option P)
  | exit
  | wait (q : P)
  | exec (path : Option Str) (reads : List (Word × Word × Option (List Byte)))

def Call.prog (me : P) : Call P → Kernel P ℤ
  | link old new => sysLink me old new
  | unlink path => sysUnlink me path
  | «open» path omode => sysOpen me path omode
  | mkdir path => sysMkdir me path
  | mknod path major minor => sysMknod me path major minor
  | chdir path => sysChdir me path
  | dup fd => sysDup me fd
  | read fd n input => sysRead me fd n input
  | write fd src => sysWrite me fd src
  | close fd => sysClose me fd
  | fstat fd => sysFstat me fd
  | fork child => sysFork me child
  | exit => sysExit me
  | wait q => sysWait q
  | exec path reads => sysExec me path reads

end Dave.Fs
