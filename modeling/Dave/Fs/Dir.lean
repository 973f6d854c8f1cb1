import Dave.Fs.Inode

/-!
# Directories and paths

The upper half of `fs.c`, with the string functions of `string.c` that it uses: directory entries,
looking a name up, adding an entry, and following a path.

A C string is the list of its bytes; reading past the end of the list is reading the terminating
`NUL`. A name is a string of at most `DIRSIZ` bytes.
-/

namespace Dave.Fs

variable {P : Type}

/-! ### Strings -/

abbrev Str : Type := List Byte

abbrev slash : Byte := 47

abbrev dot : Byte := 46

def strncmp : Str → Str → ℕ → ℤ
  | _, _, 0 => 0
  | p, q, n + 1 =>
    if p.headD 0 ≠ 0 ∧ p.headD 0 = q.headD 0 then strncmp p.tail q.tail n
    else (p.headD 0).toNat - (q.headD 0).toNat

/-- `strncpy`: the `n` bytes written. -/
def strncpy : Str → ℕ → List Byte
  | _, 0 => []
  | t, n + 1 => if t.headD 0 ≠ 0 then t.headD 0 :: strncpy t.tail n else List.replicate (n + 1) 0

/-! ### Directory entries -/

/-- `DIRSIZ`: the length of a name. -/
abbrev dirSiz : ℕ := 14

/-- `sizeof(struct dirent)`. -/
abbrev deSize : ℕ := 16

/-- A directory entry (`struct dirent`). -/
structure Dirent where
  inum : Short
  name : List Byte
  deriving DecidableEq

/-- The entry in 16 bytes. -/
def Dirent.ofBytes (bs : List Byte) : Dirent where
  inum := (bs.getD 1 0 ++ bs.getD 0 0 : BitVec (8 + 8))
  name := bs.drop 2

/-- The 16 bytes of an entry. -/
def Dirent.toBytes (de : Dirent) : List Byte :=
  de.inum.extractLsb' 0 8 :: de.inum.extractLsb' 8 8 :: de.name

def namecmp (s t : Str) : ℤ := strncmp s t dirSiz

/-- `readi(dp, (char*)&de, off, sizeof(de))`, for a directory: a short read is the given panic. -/
def readDirent (dp : Slot) (off : ℕ) (short : Panic) : M P Dirent := do
  match ← readData dp (BitVec.ofNat 32 off) (BitVec.ofNat 32 deSize) with
  | some bs => if bs.length = deSize then return .ofBytes bs else throw short
  | none => throw short

/-- The loop of `dirlookup`: the number of the inode and the offset of the entry. -/
def dirlookupLoop (dp : Slot) (name : Str) (size : ℕ) : ℕ → ℕ → M P (Option (ℕ × ℕ))
  | 0, _ => return none
  | fuel + 1, off => do
    if off < size then
      let de ← readDirent dp off .dirlookupRead
      if de.inum ≠ 0 ∧ namecmp name de.name = 0 then
        return some (de.inum.toNat, off)
      else
        dirlookupLoop dp name size fuel (off + deSize)
    else
      return none

/-- Look for a directory entry in a directory: its inode, referenced, and the byte offset of the
entry. -/
def dirlookup (dp : Slot) (name : Str) : M P (Option (Slot × ℕ)) := do
  let i := (← get).icache dp
  if i.d.type ≠ tDir then
    throw .dirlookupNotDir
  match ← dirlookupLoop dp name i.d.size.toNat i.d.size.toNat 0 with
  | some (inum, off) => return some (← iget i.dev inum, off)
  | none => return none

/-- The offset of the first empty entry, or the end of the directory. -/
def emptyLoop (dp : Slot) (size : ℕ) : ℕ → ℕ → M P ℕ
  | 0, off => return off
  | fuel + 1, off => do
    if off < size then
      let de ← readDirent dp off .dirlinkRead
      if de.inum = 0 then return off else emptyLoop dp size fuel (off + deSize)
    else
      return off

/-- The part of `dirlink` that writes the entry, once the name is known to be absent. -/
def addEntry (dp : Slot) (name : Str) (inum : ℕ) : M P Unit := do
  let size := ((← get).icache dp).d.size.toNat
  let off ← emptyLoop dp size size 0
  let de : Dirent := ⟨BitVec.ofNat 16 inum, strncpy name dirSiz⟩
  if (← writeData dp de.toBytes (BitVec.ofNat 32 off)) ≠ some deSize then
    throw .dirlink

/-- Write a new directory entry `(name, inum)` into the directory `dp`. Returns whether it could:
`false` is `-1`. -/
def dirlink (dp : Slot) (name : Str) (inum : ℕ) : Kernel P Bool := do
  -- Check that name is not present.
  match ← .lift (dirlookup dp name) with
  | some (ip, _) =>
    iput ip
    return false
  | none =>
    .lift (addEntry dp name inum)
    return true

/-- The loop of `isdirempty`. -/
def isdiremptyLoop (dp : Slot) (size : ℕ) : ℕ → ℕ → M P Bool
  | 0, _ => return true
  | fuel + 1, off => do
    if off < size then
      let de ← readDirent dp off .isdiremptyReadi
      if de.inum ≠ 0 then return false else isdiremptyLoop dp size fuel (off + deSize)
    else
      return true

/-- Is the directory `dp` empty except for `.` and `..`? -/
def isdirempty (dp : Slot) : M P Bool := do
  let size := ((← get).icache dp).d.size.toNat
  isdiremptyLoop dp size size (2 * deSize)

/-! ### Paths -/

/-- Copy the next path element from `path` into `name`: the rest of the path, without leading
slashes, and the name. Nothing if there is no name to remove. -/
def skipelem (path : Str) : Option (Str × Str) :=
  let path := path.dropWhile (· = slash)
  if path.headD 0 = 0 then none
  else
    let elem := path.takeWhile fun c => c ≠ slash ∧ c ≠ 0
    some ((path.drop elem.length).dropWhile (· = slash), elem.take dirSiz)

/-- The path elements that the successive calls of `skipelem` yield. Each call removes a character,
so that `fuel` calls are enough for a path of that length. -/
def elementsLoop : ℕ → Str → List Str
  | 0, _ => []
  | fuel + 1, path =>
    match skipelem path with
    | none => []
    | some (rest, name) => name :: elementsLoop fuel rest

/-- The elements of a path. -/
def elements (path : Str) : List Str := elementsLoop path.length path

variable [DecidableEq P]

/-- The loop of `namex`, over the elements of the path. The test of `*path == '\0'` is whether an
element is the last one. -/
def namexLoop (me : P) (parent : Bool) : List Str → Slot → Kernel P (Option (Slot × Str))
  | [], ip =>
    if parent then do
      iput ip
      return none
    else
      return some (ip, [])
  | name :: rest, ip => do
    ilock ip .namex
    let d ← .lift do return ((← get).icache ip).d
    if d.type ≠ tDir then
      iunlockput me ip
      return none
    else if parent ∧ rest = [] then
      -- Stop one level early.
      iunlock me ip
      return some (ip, name)
    else
      match ← .lift (dirlookup ip name) with
      | none =>
        iunlockput me ip
        return none
      | some (next, _) =>
        iunlockput me ip
        namexLoop me parent rest next

/-- Look up and return the inode for a path name. If `parent`, return the inode for the parent and
the final path element. -/
def namex (me : P) (path : Str) (parent : Bool) : Kernel P (Option (Slot × Str)) := do
  let ip ← .lift do
    if path.headD 0 = slash then
      iget rootDev rootIno
    else
      match ((← get).proc me).cwd with
      | some cwd => idup cwd
      | none => throw .nullPointer
  namexLoop me parent (elements path) ip

def namei (me : P) (path : Str) : Kernel P (Option Slot) := do
  return (← namex me path false).map Prod.fst

def nameiparent (me : P) (path : Str) : Kernel P (Option (Slot × Str)) := namex me path true

end Dave.Fs
