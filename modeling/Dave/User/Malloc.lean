import Dave.Block

/-!
# The allocator of the user library

`malloc` and `free` keep the free blocks in a circular list. Each block begins with a header that
holds the address of the next free block and the size of the block, in units of eight bytes, and the
static header `base` is always in the list. The headers are read and written in the bytes of the
memory, so that a header that is overwritten is lost. Addresses and sizes are 32-bit numbers, and
every sum that the code computes is taken modulo `2 ^ 32`.

The loops may run for ever, and so may a call of `sbrk`. They are given a number of rounds that they
may take, and return nothing if they take more.
-/

namespace Dave.Malloc

/-! ### Memory -/

/-- The memory of a process. -/
abbrev Ram : Type := ℕ → Byte

/-- The number in the four bytes at `a`, the lowest byte first. -/
def load (m : Ram) (a : ℕ) : ℕ :=
  (m a).toNat + 2 ^ 8 * (m (a + 1)).toNat + 2 ^ 16 * (m (a + 2)).toNat + 2 ^ 24 * (m (a + 3)).toNat

/-- Write a number to the four bytes at `a`. -/
def store (m : Ram) (a v : ℕ) : Ram := fun x =>
  if a ≤ x ∧ x < a + 4 then BitVec.ofNat 8 (v / 2 ^ (8 * (x - a))) else m x

/-- `p->s.ptr`. -/
def ptrAt (m : Ram) (p : ℕ) : ℕ := load m p

/-- `p->s.size`. -/
def sizeAt (m : Ram) (p : ℕ) : ℕ := load m (p + 4)

/-- `p->s.ptr = v`. -/
def setPtr (m : Ram) (p v : ℕ) : Ram := store m p v

/-- `p->s.size = v`. -/
def setSize (m : Ram) (p v : ℕ) : Ram := store m (p + 4) v

/-- The sum `p + n` of a `Header *` and a number. -/
def plus (p n : ℕ) : ℕ := (p + 8 * n) % 2 ^ 32

/-! ### The functions -/

/-- What the allocator works on: the memory, `freep`, and what `sbrk` works on. -/
structure Heap (W : Type) where
  ram : Ram
  freep : ℕ
  world : W

variable {W : Type}

/-- The loop of `free`. -/
def search (m : Ram) (bp : ℕ) : ℕ → ℕ → Option ℕ
  | 0, _ => none
  | fuel + 1, p =>
    if p < bp ∧ bp < ptrAt m p then some p
    else if ptrAt m p ≤ p ∧ (p < bp ∨ bp < ptrAt m p) then some p
    else search m bp fuel (ptrAt m p)

/-- The header at `q` comes behind the block at `p`, which takes it over if there is no gap. The
code of `free` does this twice: `if(p + p->s.size == q){ p->s.size += q->s.size; p->s.ptr =
q->s.ptr; } else p->s.ptr = q;` -/
def chain (m : Ram) (p q : ℕ) : Ram :=
  if plus p (sizeAt m p) = q then
    let m := setSize m p ((sizeAt m p + sizeAt m q) % 2 ^ 32)
    setPtr m p (ptrAt m q)
  else setPtr m p q

def free (fuel ap : ℕ) (h : Heap W) : Option (Heap W) := do
  -- `(Header*)ap - 1`
  let bp := (ap + (2 ^ 32 - 8)) % 2 ^ 32
  let p ← search h.ram bp fuel h.freep
  let m := chain h.ram bp (ptrAt h.ram p)
  let m := chain m p bp
  return { h with ram := m, freep := p }

section

variable (sbrk : ℕ → W → Option (ℕ × W))

/-- `morecore`. The argument of `sbrk` is a `uint`. -/
def morecore (fuel nu : ℕ) (h : Heap W) : Option (ℕ × Heap W) := do
  let nu := if nu < 4096 then 4096 else nu
  let (p, w) ← sbrk (nu * 8 % 2 ^ 32) h.world
  let h := { h with world := w }
  if p = 2 ^ 32 - 1 then return (0, h)
  else
    let h ← free fuel (plus p 1) { h with ram := setSize h.ram p nu }
    return (h.freep, h)

/-- The block that `malloc` returns when the one at `p`, behind `prevp`, is large enough. -/
def take (nunits prevp p : ℕ) (h : Heap W) : ℕ × Heap W :=
  if sizeAt h.ram p = nunits then
    (plus p 1, { h with ram := setPtr h.ram prevp (ptrAt h.ram p), freep := prevp })
  else
    let m := setSize h.ram p ((sizeAt h.ram p + (2 ^ 32 - nunits)) % 2 ^ 32)
    let p := plus p (sizeAt m p)
    (plus p 1, { h with ram := setSize m p nunits, freep := prevp })

/-- The loop of `malloc`. -/
def mallocLoop (nunits : ℕ) : ℕ → ℕ → ℕ → Heap W → Option (ℕ × Heap W)
  | 0, _, _, _ => none
  | fuel + 1, prevp, p, h =>
    if nunits ≤ sizeAt h.ram p then some (take nunits prevp p h)
    else if p = h.freep then do
      let (p, h) ← morecore sbrk fuel nunits h
      if p = 0 then return (0, h) else mallocLoop nunits fuel p (ptrAt h.ram p) h
    else mallocLoop nunits fuel p (ptrAt h.ram p) h

/-- The number of units for a request: `(nbytes + sizeof(Header) - 1)/sizeof(Header) + 1`. -/
def units (nbytes : ℕ) : ℕ := (nbytes + 7) % 2 ^ 32 / 8 + 1

/-- `base.s.ptr = freep = &base; base.s.size = 0;`, if there is no list yet. -/
def init (base : ℕ) (h : Heap W) : Heap W :=
  if h.freep = 0 then { h with ram := setSize (setPtr h.ram base base) base 0, freep := base }
  else h

/-- `malloc`, where `base` is the address of the static header. -/
def malloc (base fuel nbytes : ℕ) (h : Heap W) : Option (ℕ × Heap W) :=
  let h := init base h
  mallocLoop sbrk (units nbytes) fuel h.freep (ptrAt h.ram h.freep) h

end

/-! ### Reading what was written -/

variable {m m' : Ram} {a b v : ℕ}

theorem load_lt (m : Ram) (a : ℕ) : load m a < 2 ^ 32 := by
  have h₀ := (m a).isLt
  have h₁ := (m (a + 1)).isLt
  have h₂ := (m (a + 2)).isLt
  have h₃ := (m (a + 3)).isLt
  rw [load]
  omega

theorem load_congr (h : ∀ x, a ≤ x → x < a + 4 → m' x = m x) : load m' a = load m a := by
  rw [load, load, h a (by omega) (by omega), h (a + 1) (by omega) (by omega),
    h (a + 2) (by omega) (by omega), h (a + 3) (by omega) (by omega)]

theorem store_of_lt {x : ℕ} (h : x < a ∨ a + 4 ≤ x) : store m a v x = m x :=
  if_neg (by omega)

@[simp] theorem load_store_self (hv : v < 2 ^ 32) : load (store m a v) a = v := by
  have hbyte : ∀ i < 4, (store m a v (a + i)).toNat = v / 2 ^ (8 * i) % 2 ^ 8 := by
    intro i hi
    rw [store, if_pos (by omega), BitVec.toNat_ofNat, Nat.add_sub_cancel_left]
  have h₀ := hbyte 0 (by omega)
  have h₁ := hbyte 1 (by omega)
  have h₂ := hbyte 2 (by omega)
  have h₃ := hbyte 3 (by omega)
  rw [Nat.add_zero] at h₀
  rw [load, h₀, h₁, h₂, h₃]
  omega

theorem load_store_of_apart (h : a + 4 ≤ b ∨ b + 4 ≤ a) : load (store m a v) b = load m b :=
  load_congr fun _ _ _ => store_of_lt (by omega)

end Dave.Malloc
