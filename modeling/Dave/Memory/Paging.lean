import Dave.Block
import Mathlib.Algebra.Group.Int.Defs
import Mathlib.Algebra.GroupWithZero.Nat
import Mathlib.Data.Fintype.Basic
import Mathlib.Logic.Function.Basic

/-!
# Page frames and page tables

The page allocator (`kalloc.c`) and the functions that build, change and free address spaces
(`vm.c`). A frame is a page of physical memory. A page directory is modelled together with the
page-table pages it points to: both have the frame they live in, so that an address space is a tree
of frames. Addresses and sizes are counted in pages where the source only ever uses multiples of
`PGSIZE`.

The contents of a frame are bytes; those of page tables and page directories, which are values of
their own, are not looked at again as bytes.

`kalloc` may fail at any call: `Mem.refuse` says which calls fail although there is a free frame.
`Mem.failed` and `Mem.refreed` remember that a call of `kalloc` has failed, and that a frame has
been freed that was free already.
-/

namespace Dave.Memory

/-! ### Layout -/

abbrev pgSize : ℕ := 4096

/-- The number of pages of an address space, and of physical memory. -/
def nPage : ℕ := 2 ^ 20

theorem nPage_eq : nPage = 1048576 := rfl

instance : NeZero nPage := ⟨by decide⟩

/-- `NPDENTRIES` and `NPTENTRIES`. -/
def nEntries : ℕ := 1024

theorem nEntries_eq : nEntries = 1024 := rfl

instance : NeZero nEntries := ⟨by decide⟩

-- nothing should be computed by going through all pages
attribute [irreducible] nPage nEntries

abbrev kernBase : ℕ := 0x80000000

/-- `KERNBASE` as a page. -/
abbrev kernPage : ℕ := 0x80000

/-- A page of physical memory. -/
abbrev Frame : Type := Fin nPage

/-- The number of pages that `size` bytes take: `PGROUNDUP(size) / PGSIZE`. -/
def pages (size : ℕ) : ℕ := (size + (pgSize - 1)) / pgSize

/-- An entry of `kmap`: a kernel mapping of `len` pages. -/
structure Kmap where
  virt : ℕ
  phys : ℕ
  len : ℕ
  writable : Bool

/-- What depends on how the kernel is linked and on the size of memory: the first whole frame after
`end`, the frame at `PHYSTOP`, and the table `kmap`. All its mappings are in the kernel part of the
address space. -/
structure Layout where
  first : ℕ
  phystop : ℕ
  kmap : List Kmap
  pos : 0 < first
  kern : ∀ k ∈ kmap, kernPage ≤ k.virt ∧ k.virt + k.len ≤ nPage

/-- The layout of this kernel, when the first frame after `end` is `first` and the data of the
kernel begin at frame `data`. -/
def Layout.dave (first data : ℕ) (hdata : 0x100 ≤ data) (htop : data ≤ 0xE000)
    (hfirst : data < first) : Layout where
  first := first
  phystop := 0xE000
  kmap := [⟨0x80000, 0, 0x100, true⟩, ⟨0x80100, 0x100, data - 0x100, false⟩,
    ⟨0x80000 + data, data, 0xE000 - data, true⟩, ⟨0xFE000, 0xFE000, 0x2000, true⟩]
  pos := by omega
  kern := by
    intro k hk
    simp only [List.mem_cons, List.not_mem_nil, or_false] at hk
    rcases hk with rfl | rfl | rfl | rfl <;> simp only [kernPage, nPage_eq] <;> omega

/-! ### The allocator -/

/-- The panics of this part of the kernel. -/
inductive Panic where
  /-- `kfree` -/
  | kfree
  /-- `remap` -/
  | remap
  /-- `PHYSTOP too high` -/
  | phystopTooHigh
  /-- `clearpteu` -/
  | clearpteu
  /-- `copyuvm: pte should exist` -/
  | copyuvmPte
  /-- `copyuvm: page not present` -/
  | copyuvmPage
  /-- `loaduvm: address should exist` -/
  | loaduvmAddr
  /-- `freevm: no pgdir` -/
  | freevmNoPgdir
  /-- `filedup` -/
  | filedup
  /-- `fileclose` -/
  | fileclose
  /-- `init exiting` -/
  | initExiting
  /-- `userinit: out of memory?` -/
  | userinit
  /-- a null pointer is followed -/
  | nullPointer
  /-- a pipe is used after its page has been freed -/
  | freedPipe
  deriving DecidableEq

/-- The contents of the frames, by byte. -/
abbrev Phys : Type := Frame → ℕ → Byte

/-- The allocator: `kmem.freelist`, which calls of `kalloc` fail, the number of calls so far, what
has been remembered, and the contents of the frames. -/
structure Mem where
  freelist : List Frame
  refuse : ℕ → Bool
  calls : ℕ
  failed : Bool
  refreed : Bool
  ram : Phys

/-- Code that uses the allocator. -/
abbrev M : Type → Type := StateT Mem (Except Panic)

/-- `memset(P2V(f), b, PGSIZE)`. -/
def memset (f : Frame) (b : Byte) : M Unit :=
  modify fun m => { m with ram := Function.update m.ram f fun _ => b }

/-- `memmove(P2V(dst), P2V(src), PGSIZE)`. -/
def memmove (dst src : Frame) : M Unit :=
  modify fun m => { m with ram := Function.update m.ram dst (m.ram src) }

def kfree (L : Layout) (f : Frame) : M Unit := do
  if f.val < L.first ∨ L.phystop ≤ f.val then throw .kfree
  -- fill with junk to catch dangling references
  memset f 1
  modify fun m => { m with
    freelist := f :: m.freelist
    refreed := m.refreed || decide (f ∈ m.freelist) }

def kalloc : M (Option Frame) := do
  let m ← get
  match m.refuse m.calls, m.freelist with
  | false, f :: rest =>
    set { m with freelist := rest, calls := m.calls + 1 }
    return some f
  | _, _ =>
    set { m with calls := m.calls + 1, failed := true }
    return none

/-- Hand the frames `from, …, from + n - 1` to the allocator. -/
def freerange (L : Layout) (first : ℕ) : ℕ → M Unit
  | 0 => return ()
  | n + 1 => do
    kfree L (Fin.ofNat nPage first)
    freerange L (first + 1) n

/-! ### Page tables -/

/-- The flag bits of an entry but `PTE_P`: `PTE_W`, `PTE_U`, and the nine that the kernel does not
look at. -/
structure Perm where
  writable : Bool
  user : Bool
  rest : BitVec 9

structure Pte extends Perm where
  frame : Frame
  present : Bool

/-- The entry that is zero. -/
def Pte.zero : Pte := ⟨⟨false, false, 0⟩, 0, false⟩

structure PageTable where
  frame : Frame
  pte : Fin nEntries → Pte

/-- A page directory with the page tables of its present entries. -/
structure PageDir where
  frame : Frame
  table : Fin nEntries → Option PageTable

/-- `PDX` of page `i`. -/
def pdx (i : ℕ) : Fin nEntries := Fin.ofNat nEntries (i / nEntries)

/-- `PTX` of page `i`. -/
def ptx (i : ℕ) : Fin nEntries := Fin.ofNat nEntries i

theorem pdx_val (i : ℕ) : (pdx i).val = i / 1024 % 1024 := by
  rw [← nEntries_eq]
  rfl

theorem ptx_val (i : ℕ) : (ptx i).val = i % 1024 := by
  rw [← nEntries_eq]
  rfl

namespace PageDir

/-- `walkpgdir(pgdir, va, 0)`: the entry of page `i`. -/
def pte (d : PageDir) (i : ℕ) : Option Pte := (d.table (pdx i)).map fun t => t.pte (ptx i)

/-- `*pte = e` for the entry of page `i`. -/
def setPte (d : PageDir) (i : ℕ) (e : Pte) : PageDir :=
  { d with
    table := Function.update d.table (pdx i)
      ((d.table (pdx i)).map fun t => { t with pte := Function.update t.pte (ptx i) e }) }

/-- A page-table page in the frame `f`, for page `i`. -/
def setTable (d : PageDir) (i : ℕ) (f : Frame) : PageDir :=
  { d with table := Function.update d.table (pdx i) (some ⟨f, fun _ => .zero⟩) }

end PageDir

/-- `walkpgdir(pgdir, va, 1)`: the directory, which then has a page table for page `i`, unless there
is no memory for one. -/
def walkpgdir (d : PageDir) (i : ℕ) : M (Option PageDir) :=
  match d.table (pdx i) with
  | some _ => return some d
  | none => do
    match ← kalloc with
    | none => return none
    | some f => return some (d.setTable i f)

/-- Map the `n` pages from page `i` on to the frames from `pa` on. Returns whether this succeeded,
and the directory. -/
def mappages (d : PageDir) (i pa : ℕ) (perm : Perm) : ℕ → M (Bool × PageDir)
  | 0 => return (true, d)
  | n + 1 => do
    match ← walkpgdir d i with
    | none => return (false, d)
    | some d =>
      if (d.pte i).any (·.present) then throw .remap
      mappages (d.setPte i ⟨perm, Fin.ofNat nPage pa, true⟩) (i + 1) (pa + 1) perm n

/-- The loop of `deallocuvm`, from page `i` to page `stop`. The number of rounds is at most the
number of pages. -/
def deallocLoop (L : Layout) (stop : ℕ) (d : PageDir) (i : ℕ) : ℕ → M PageDir
  | 0 => return d
  | n + 1 =>
    if stop ≤ i then return d
    else match d.pte i with
      -- no page table: on to the first page of the next one
      | none => deallocLoop L stop d ((i / nEntries + 1) * nEntries) n
      | some e =>
        if e.present then do
          if e.frame = 0 then throw .kfree
          kfree L e.frame
          deallocLoop L stop (d.setPte i .zero) (i + 1) n
        else deallocLoop L stop d (i + 1) n

/-- Deallocate user pages to bring the process size from `oldsz` to `newsz`. Returns the new size
and the directory. -/
def deallocuvm (L : Layout) (d : PageDir) (oldsz newsz : ℕ) : M (ℕ × PageDir) := do
  if oldsz ≤ newsz then return (oldsz, d)
  let d ← deallocLoop L (pages oldsz) d (pages newsz) (pages oldsz - pages newsz)
  return (newsz, d)

/-- Free the page table of an entry of the directory. -/
def freeTable (L : Layout) : Option PageTable → M Unit
  | some t => kfree L t.frame
  | none => return ()

/-- Free a page directory, its page tables and the user pages. -/
def freevm (L : Layout) (d : PageDir) : M Unit := do
  let (_, d) ← deallocuvm L d kernBase 0
  (List.finRange nEntries).forM fun i => freeTable L (d.table i)
  kfree L d.frame

/-- The loop of `setupkvm`. -/
def kmapLoop (L : Layout) (d : PageDir) : List Kmap → M (Option PageDir)
  | [] => return some d
  | k :: ks => do
    match ← mappages d k.virt k.phys ⟨k.writable, false, 0⟩ k.len with
    | (false, d) =>
      freevm L d
      return none
    | (true, d) => kmapLoop L d ks

/-- Set up the kernel part of an address space. -/
def setupkvm (L : Layout) : M (Option PageDir) := do
  match ← kalloc with
  | none => return none
  | some f =>
    -- `P2V(PHYSTOP) > (void*)DEVSPACE`
    if 0xFE000 < kernPage + L.phystop then throw .phystopTooHigh
    kmapLoop L ⟨f, fun _ => none⟩ L.kmap

/-- The loop of `allocuvm`, for the `n` pages from page `i` on. -/
def allocLoop (L : Layout) (oldsz newsz : ℕ) (d : PageDir) (i : ℕ) : ℕ → M (ℕ × PageDir)
  | 0 => return (newsz, d)
  | n + 1 => do
    match ← kalloc with
    | none =>
      let (_, d) ← deallocuvm L d newsz oldsz
      return (0, d)
    | some mem =>
      memset mem 0
      match ← mappages d i mem.val ⟨true, true, 0⟩ 1 with
      | (false, d) =>
        let (_, d) ← deallocuvm L d newsz oldsz
        kfree L mem
        return (0, d)
      | (true, d) => allocLoop L oldsz newsz d (i + 1) n

/-- Allocate page tables and memory to grow a process from `oldsz` to `newsz`. Returns the new
size, or 0, and the directory. -/
def allocuvm (L : Layout) (d : PageDir) (oldsz newsz : ℕ) : M (ℕ × PageDir) := do
  if kernBase ≤ newsz then return (0, d)
  if newsz < oldsz then return (oldsz, d)
  allocLoop L oldsz newsz d (pages oldsz) (pages newsz - pages oldsz)

/-- Grow the memory of a process of size `sz` by `n` bytes. Returns what the source returns, the
size and the directory. The sum is computed as a `uint`. -/
def growproc (L : Layout) (d : PageDir) (sz : ℕ) (n : ℤ) : M (ℤ × ℕ × PageDir) := do
  let newsz := ((sz + n) % 2 ^ 32).toNat
  if 0 < n then
    let (r, d) ← allocuvm L d sz newsz
    return if r = 0 then (-1, sz, d) else (0, r, d)
  else if n < 0 then
    let (r, d) ← deallocuvm L d sz newsz
    return if r = 0 then (-1, sz, d) else (0, r, d)
  else return (0, sz, d)

/-- The loop of `copyuvm`, for the `n` pages from page `i` on of `src`. -/
def copyLoop (L : Layout) (src d : PageDir) (i : ℕ) : ℕ → M (Option PageDir)
  | 0 => return some d
  | n + 1 => do
    match src.pte i with
    | none => throw .copyuvmPte
    | some e =>
      if e.present = false then throw .copyuvmPage
      match ← kalloc with
      | none =>
        freevm L d
        return none
      | some mem =>
        memmove mem e.frame
        match ← mappages d i mem.val e.toPerm 1 with
        | (false, d) =>
          kfree L mem
          freevm L d
          return none
        | (true, d) => copyLoop L src d (i + 1) n

/-- A copy of the address space of a process of size `sz`, for a child. -/
def copyuvm (L : Layout) (src : PageDir) (sz : ℕ) : M (Option PageDir) := do
  match ← setupkvm L with
  | none => return none
  | some d => copyLoop L src d 0 (pages sz)

def clearpteu (d : PageDir) (i : ℕ) : M PageDir :=
  match d.pte i with
  | none => throw .clearpteu
  | some e => return d.setPte i { e with user := false }

/-- Load a segment to the `n` pages from page `i` on; `readi` tells which calls of `readi` return
what is asked for. Only the existence of the pages matters here, not what is loaded. -/
def loaduvm (d : PageDir) (readi : ℕ → Bool) (i : ℕ) : ℕ → M Bool
  | 0 => return true
  | n + 1 => do
    if (d.pte i).isNone then throw .loaduvmAddr
    if readi i then loaduvm d readi (i + 1) n else return false

end Dave.Memory
