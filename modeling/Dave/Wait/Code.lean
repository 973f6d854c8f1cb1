import Dave.Block
import Dave.Lib.Monitor
import Dave.Lib.Ring

/-!
# The interruptible waits

The code that sleeps until something arrives or until its process is killed: `pipewrite`, `piperead`
and `pipeclose` (`pipe.c`), `consoleread` and `consoleintr` (`console.c`), `sys_sleep`
(`sysproc.c`) and the timer interrupt (`trap.c`). Any number of processes run it on one pipe, the
console and the clock. `sleep`, `wakeup` and `kill` are those of `Dave.Monitor`, where the lock of
the sleepers is `ptable.lock`.

A location is a point of the code between two steps, with the local variables that are still needed.
The pipe carries two lists the code does not have: the bytes that have been stored and the bytes
that have been copied out, in the order in which this happened.
-/

namespace Dave.Wait

open Monitor

/-! ### Shared data -/

abbrev pipeSize : ℕ := 512

abbrev inputBuf : ℕ := 128

/-- `struct pipe`, with the bytes stored in it and copied out of it so far. -/
structure Pipe where
  data : Fin pipeSize → Byte
  nread : Word
  nwrite : Word
  readopen : Bool
  writeopen : Bool
  stored : List Byte
  returned : List Byte

namespace Pipe

/-- `p->nread == p->nwrite`. -/
def empty (p : Pipe) : Bool := p.nread = p.nwrite

/-- `p->nwrite == p->nread + PIPESIZE`. -/
def full (p : Pipe) : Bool := p.nwrite = p.nread + BitVec.ofNat 32 pipeSize

/-- `p->data[p->nwrite++ % PIPESIZE] = b`. -/
def store (p : Pipe) (b : Byte) : Pipe :=
  { p with
    data := Function.update p.data (Ring.index pipeSize p.nwrite) b
    nwrite := p.nwrite + 1
    stored := p.stored ++ [b] }

/-- `p->data[p->nread % PIPESIZE]`. -/
def front (p : Pipe) : Byte := p.data (Ring.index pipeSize p.nread)

/-- `p->data[p->nread++ % PIPESIZE]` is copied out. -/
def take (p : Pipe) : Pipe :=
  { p with nread := p.nread + 1, returned := p.returned ++ [p.front] }

/-- `p->writeopen = 0` or `p->readopen = 0`. -/
def close (p : Pipe) : Bool → Pipe
  | true => { p with writeopen := false }
  | false => { p with readopen := false }

/-- The pipe that `pipealloc` makes in a page with the given contents. -/
def alloc (data : Fin pipeSize → Byte) : Pipe where
  data := data
  nread := 0
  nwrite := 0
  readopen := true
  writeopen := true
  stored := []
  returned := []

end Pipe

/-- The console's `input`. -/
structure Input where
  buf : Fin inputBuf → Byte
  r : Word
  w : Word
  e : Word

namespace Input

/-- `C('D')`. -/
abbrev ctrlD : Byte := 0x04

abbrev newline : Byte := 0x0a

/-- `input.buf[input.r++ % INPUT_BUF]` is taken. -/
def advance (i : Input) : Input := { i with r := i.r + 1 }

/-- `input.buf[input.e++ % INPUT_BUF] = c`. -/
def put (i : Input) (c : Byte) : Input :=
  { i with buf := Function.update i.buf (Ring.index inputBuf i.e) c, e := i.e + 1 }

/-- Erase characters of the line being edited, at most `n` of them. -/
def killLine (i : Input) : ℕ → Input
  | 0 => i
  | n + 1 =>
    if i.e ≠ i.w ∧ i.buf (Ring.index inputBuf (i.e - 1)) ≠ newline then
      { i with e := i.e - 1 }.killLine n
    else i

/-- One character of `consoleintr`: the input afterwards, and whether `wakeup(&input.r)` follows. -/
def intr (i : Input) (c : Byte) : Input × Bool :=
  if c = 0x10 then (i, false) -- `C('P')`, the process listing
  else if c = 0x15 then (i.killLine (i.e - i.w).toNat, false) -- `C('U')`
  else if c = 0x08 ∨ c = 0x7f then -- backspace
    if i.e ≠ i.w then ({ i with e := i.e - 1 }, false) else (i, false)
  else if c ≠ 0 ∧ i.e - i.r < BitVec.ofNat 32 inputBuf then
    let c' := if c = 0x0d then newline else c
    let i' := i.put c'
    if c' = newline ∨ c' = ctrlD ∨ i'.e = i'.r + BitVec.ofNat 32 inputBuf then
      ({ i' with w := i'.e }, true)
    else (i', false)
  else (i, false)

end Input

structure Shared where
  pipe : Pipe
  input : Input
  ticks : Word

/-! ### Code -/

/-- `p->lock`, `cons.lock` and `tickslock`. -/
inductive Lock where
  | pipe | cons | ticks
  deriving DecidableEq

/-- The channels `&p->nread`, `&p->nwrite`, `&input.r` and `&ticks`. -/
inductive Chan where
  | nread | nwrite | input | ticks
  deriving DecidableEq

/-- The locations of the code. In `pipewrite`, `rest` holds the bytes `addr[i], …, addr[n - 1]`; in
`piperead` and `consoleread`, `got` holds the bytes copied so far. -/
inductive Loc where
  | idle
  -- `pipewrite(p, addr, n)`
  | writeAcquire (n : ℤ) (rest : List Byte)
  | writeLoop (n : ℤ) (rest : List Byte)
  | writeFull (n : ℤ) (rest : List Byte)
  | writeKilled (n : ℤ) (rest : List Byte)
  | writeWake (n : ℤ) (rest : List Byte)
  | writeSleep (n : ℤ) (rest : List Byte)
  | writeFail
  | writeDone (n : ℤ)
  | writeRelease (n : ℤ)
  -- `piperead(p, addr, n)`
  | readAcquire (n : ℤ)
  | readTest (n : ℤ)
  | readKilled (n : ℤ)
  | readSleep (n : ℤ)
  | readFail
  | readCopy (n : ℤ) (got : List Byte)
  | readWake (n : ℤ) (got : List Byte)
  | readRelease (n : ℤ) (got : List Byte)
  -- `pipeclose(p, writable)`
  | closeAcquire (writable : Bool)
  | closeSet (writable : Bool)
  | closeWake (writable : Bool)
  | closeTest
  | closeRelease (last : Bool)
  -- `consoleread(ip, dst, n)`
  | consAcquire (n : ℤ)
  | consLoop (target n : ℤ) (got : List Byte)
  | consKilled (target n : ℤ) (got : List Byte)
  | consSleep (target n : ℤ) (got : List Byte)
  | consFail
  | consRelease (got : List Byte)
  -- `consoleintr`, with the characters that `getc` returns
  | intrAcquire (cs : List Byte)
  | intrLoop (cs : List Byte)
  | intrWake (cs : List Byte)
  | intrRelease
  -- `sys_sleep`
  | sleepAcquire (n : Word)
  | sleepStart (n : Word)
  | sleepLoop (n ticks0 : Word)
  | sleepKilled (n ticks0 : Word)
  | sleepSleep (n ticks0 : Word)
  | sleepFail
  | sleepRelease
  -- the timer interrupt
  | tickAcquire
  | tickAdd
  | tickWake
  | tickRelease

/-- A process that runs none of the code starts one of the functions; `addr` of `pipewrite` has `n`
bytes. -/
def Loc.starts : Loc → Bool
  | .writeAcquire n rest => rest.length = n.toNat
  | .readAcquire _ | .closeAcquire _ | .consAcquire _ | .intrAcquire _ | .sleepAcquire _
  | .tickAcquire => true
  | _ => false

/-- The code. Where the source releases a lock and returns, the location afterwards is `idle`. -/
def code : Loc → Act Lock Chan Shared Loc
  | .idle => .choose Loc.starts
  -- `pipewrite`
  | .writeAcquire n rest => .acquire (some .pipe) (.writeLoop n rest)
  | .writeLoop n [] => .access fun s => (s, .writeDone n)
  | .writeLoop n (b :: rest) => .access fun s =>
    if s.pipe.full then (s, .writeFull n (b :: rest))
    else ({ s with pipe := s.pipe.store b }, .writeLoop n rest)
  | .writeFull n rest => .access fun s =>
    (s, if s.pipe.readopen then .writeKilled n rest else .writeFail)
  | .writeKilled n rest => .interrupted .writeFail (.writeWake n rest)
  | .writeWake n rest => .wakeup .nread (.writeSleep n rest)
  | .writeSleep n rest => .sleep .nwrite (some .pipe) (.writeLoop n rest)
  | .writeFail => .release (some .pipe) .idle
  | .writeDone n => .wakeup .nread (.writeRelease n)
  | .writeRelease _ => .release (some .pipe) .idle
  -- `piperead`
  | .readAcquire n => .acquire (some .pipe) (.readTest n)
  | .readTest n => .access fun s =>
    (s, if s.pipe.empty && s.pipe.writeopen then .readKilled n else .readCopy n [])
  | .readKilled n => .interrupted .readFail (.readSleep n)
  | .readSleep n => .sleep .nread (some .pipe) (.readTest n)
  | .readFail => .release (some .pipe) .idle
  | .readCopy n got => .access fun s =>
    if got.length < n ∧ s.pipe.empty = false then
      ({ s with pipe := s.pipe.take }, .readCopy n (got ++ [s.pipe.front]))
    else (s, .readWake n got)
  | .readWake n got => .wakeup .nwrite (.readRelease n got)
  | .readRelease _ _ => .release (some .pipe) .idle
  -- `pipeclose`
  | .closeAcquire writable => .acquire (some .pipe) (.closeSet writable)
  | .closeSet writable => .access fun s =>
    ({ s with pipe := s.pipe.close writable }, .closeWake writable)
  | .closeWake writable => .wakeup (if writable then .nread else .nwrite) .closeTest
  | .closeTest => .access fun s => (s, .closeRelease (!s.pipe.readopen && !s.pipe.writeopen))
  | .closeRelease _ => .release (some .pipe) .idle -- `kfree` follows if this was the last end
  -- `consoleread`
  | .consAcquire n => .acquire (some .cons) (.consLoop n n [])
  | .consLoop target n got => .access fun s =>
    if 0 < n then
      if s.input.r = s.input.w then (s, .consKilled target n got)
      else
        let c := s.input.buf (Ring.index inputBuf s.input.r)
        if c = Input.ctrlD then
          -- `^D` is kept for the next call if this one has something to return
          if n < target then (s, .consRelease got)
          else ({ s with input := s.input.advance }, .consRelease got)
        else if c = Input.newline then
          ({ s with input := s.input.advance }, .consRelease (got ++ [c]))
        else ({ s with input := s.input.advance }, .consLoop target (n - 1) (got ++ [c]))
    else (s, .consRelease got)
  | .consKilled target n got => .interrupted .consFail (.consSleep target n got)
  | .consSleep target n got => .sleep .input (some .cons) (.consLoop target n got)
  | .consFail => .release (some .cons) .idle
  | .consRelease _ => .release (some .cons) .idle
  -- `consoleintr`
  | .intrAcquire cs => .acquire (some .cons) (.intrLoop cs)
  | .intrLoop [] => .access fun s => (s, .intrRelease)
  | .intrLoop (c :: cs) => .access fun s =>
    ({ s with input := (s.input.intr c).1 },
      if (s.input.intr c).2 then .intrWake cs else .intrLoop cs)
  | .intrWake cs => .wakeup .input (.intrLoop cs)
  | .intrRelease => .release (some .cons) .idle
  -- `sys_sleep`
  | .sleepAcquire n => .acquire (some .ticks) (.sleepStart n)
  | .sleepStart n => .access fun s => (s, .sleepLoop n s.ticks)
  | .sleepLoop n ticks0 => .access fun s =>
    (s, if s.ticks - ticks0 < n then .sleepKilled n ticks0 else .sleepRelease)
  | .sleepKilled n ticks0 => .interrupted .sleepFail (.sleepSleep n ticks0)
  | .sleepSleep n ticks0 => .sleep .ticks (some .ticks) (.sleepLoop n ticks0)
  | .sleepFail => .release (some .ticks) .idle
  | .sleepRelease => .release (some .ticks) .idle
  -- the timer interrupt
  | .tickAcquire => .acquire (some .ticks) .tickAdd
  | .tickAdd => .access fun s => ({ s with ticks := s.ticks + 1 }, .tickWake)
  | .tickWake => .wakeup .ticks .tickRelease
  | .tickRelease => .release (some .ticks) .idle

variable {P : Type}

def start (P : Type) (data : Fin pipeSize → Byte) (input : Input) (ticks : Word) :
    State P Lock Chan Shared Loc where
  shared := ⟨.alloc data, input, ticks⟩
  lock _ := none
  status _ := .run
  loc _ := .idle
  mark _ := false

/-! ### Locks -/

/-- The lock held at a location. -/
def Loc.lock : Loc → Option Lock
  | .writeLoop _ _ | .writeFull _ _ | .writeKilled _ _ | .writeWake _ _ | .writeSleep _ _
  | .writeFail | .writeDone _ | .writeRelease _ | .readTest _ | .readKilled _ | .readSleep _
  | .readFail | .readCopy _ _ | .readWake _ _ | .readRelease _ _ | .closeSet _ | .closeWake _
  | .closeTest | .closeRelease _ => some .pipe
  | .consLoop _ _ _ | .consKilled _ _ _ | .consSleep _ _ _ | .consFail | .consRelease _
  | .intrLoop _ | .intrWake _ | .intrRelease => some .cons
  | .sleepStart _ | .sleepLoop _ _ | .sleepKilled _ _ | .sleepSleep _ _ | .sleepFail
  | .sleepRelease | .tickAdd | .tickWake | .tickRelease => some .ticks
  | .idle | .writeAcquire _ _ | .readAcquire _ | .closeAcquire _ | .consAcquire _ | .intrAcquire _
  | .sleepAcquire _ | .tickAcquire => none

/-- A process at `k` holds lock `x`. -/
def holds (k : Loc) (x : Option Lock) : Prop := x ≠ none ∧ x = k.lock

theorem Loc.lock_of_starts {k : Loc} (hk : k.starts = true) : k.lock = none := by
  cases k <;> first | rfl | cases hk

theorem Loc.lock_consLoop (target n : ℤ) (got : List Byte) (s : Shared) :
    ∀ f, code (.consLoop target n got) = .access f → (f s).2.lock = some .cons := by
  rintro f hf
  cases hf
  dsimp only
  split_ifs <;> rfl

theorem respects : Respects code holds := by
  intro k
  cases k with
  | idle =>
    intro k hk x
    simp only [holds, Loc.lock_of_starts hk]
    rfl
  | writeLoop n rest =>
    cases rest with
    | nil => simp [code, holds, Loc.lock]
    | cons b rest =>
      intro s x
      dsimp only
      split_ifs <;> simp [holds, Loc.lock]
  | writeFull n rest | readTest n | readCopy n got =>
    intro s x
    dsimp only
    split_ifs <;> simp [holds, Loc.lock]
  | consLoop target n got =>
    intro s x
    have := Loc.lock_consLoop target n got s _ rfl
    rw [holds, holds, this]
    rfl
  | intrLoop cs =>
    cases cs with
    | nil => simp [code, holds, Loc.lock]
    | cons c cs =>
      intro s x
      dsimp only
      split_ifs <;> simp [holds, Loc.lock]
  | sleepLoop n ticks0 =>
    intro s x
    dsimp only
    split_ifs <;> simp [holds, Loc.lock]
  | _ => simp +contextual [code, holds, Loc.lock]

/-! ### Accesses to the pipe -/

/-- What one access does to the pipe, with the location before and after. -/
inductive Changes (s : Shared) : Loc → Pipe → Loc → Prop where
  | same {k k' : Loc} : Changes s k s.pipe k'
  | store (n : ℤ) (b : Byte) (rest : List Byte) (h : s.pipe.full = false) :
      Changes s (.writeLoop n (b :: rest)) (s.pipe.store b) (.writeLoop n rest)
  | take (n : ℤ) (got : List Byte) (h : s.pipe.empty = false) (hn : got.length < n) :
      Changes s (.readCopy n got) s.pipe.take (.readCopy n (got ++ [s.pipe.front]))
  | close (writable : Bool) :
      Changes s (.closeSet writable) (s.pipe.close writable) (.closeWake writable)

theorem changes {k : Loc} {f : Shared → Shared × Loc} (hk : code k = .access f) (s : Shared) :
    Changes s k (f s).1.pipe (f s).2 := by
  cases k with
  | writeLoop n rest =>
    cases rest with
    | nil => cases hk; exact .same
    | cons b rest =>
      cases hk
      by_cases hfull : s.pipe.full = true
      · simpa [hfull] using .same
      · simpa [hfull] using .store n b rest (by simpa using hfull)
  | readCopy n got =>
    cases hk
    by_cases h : got.length < n ∧ s.pipe.empty = false
    · simpa [h] using .take n got h.2 h.1
    · simpa only [if_neg h] using .same
  | closeSet writable => cases hk; exact .close writable
  | consLoop target n got =>
    have hsame : (f s).1.pipe = s.pipe := by
      cases hk
      dsimp only
      split_ifs <;> rfl
    rw [hsame]
    exact .same
  | intrLoop cs => cases cs <;> cases hk <;> exact .same
  | writeFull | readTest | closeTest | sleepStart | sleepLoop | tickAdd => cases hk; exact .same
  | _ => cases hk

theorem Changes.lock {s : Shared} {k k' : Loc} {p' : Pipe} (hc : Changes s k p' k') :
    p' = s.pipe ∨ k.lock = some .pipe := by
  cases hc with
  | same => exact .inl rfl
  | _ => exact .inr rfl

/-- The action leads from what `A` asserts to what `A` asserts. -/
def Keeps (A : Loc → Pipe → Prop) (s : Shared) : Act Lock Chan Shared Loc → Prop
  | .acquire _ k | .release _ k | .wakeup _ k | .wakeup1 _ k => A k s.pipe
  | .access f => A (f s).2 (f s).1.pipe
  | .interrupted yes no => A yes s.pipe ∧ A no s.pipe
  | .sleep _ _ _ => True
  | .choose ks => ∀ k, ks k = true → A k s.pipe

/-- Assertions about the pipe at the locations where its lock is held: nothing is asserted where
the lock is taken or taken again, and every other step under the lock has to keep them. -/
theorem asserts_of_pipe {A : Loc → Pipe → Prop} (hfree : ∀ k p, k.lock ≠ some .pipe → A k p)
    (hacquire : ∀ k l k', code k = .acquire l k' → ∀ p, A k' p)
    (hwake : ∀ k c l k', code k = .sleep c l k' → ∀ p, A k' p)
    (hnext : ∀ k s, k.lock = some .pipe → A k s.pipe → Keeps A s (code k)) :
    Asserts code holds fun k s => A k s.pipe where
  next k s hk := by
    suffices hkeeps : Keeps A s (code k) by
      cases hc : code k <;> rw [hc] at hkeeps <;> exact hkeeps
    by_cases hlock : k.lock = some .pipe
    · exact hnext k s hlock hk
    -- without the lock of the pipe, only an `acquire` leads to where it is held
    have hnot : ¬ holds k (some .pipe) := fun h => hlock h.2.symm
    have hout : ∀ k', ¬ holds k' (some .pipe) → ∀ p, A k' p := fun k' hk' p =>
      hfree k' p fun h => hk' ⟨nofun, h.symm⟩
    have hr := respects k
    cases hc : code k with
    | acquire l k' => exact hacquire k l k' hc _
    | sleep => trivial
    | release l k' => rw [hc] at hr; exact hout _ (fun h => hnot ((hr _).mp h).2) _
    | access f => rw [hc] at hr; exact hout _ (fun h => hnot ((hr s _).mp h)) _
    | interrupted yes no =>
      rw [hc] at hr
      exact ⟨hout _ (fun h => hnot ((hr _).1.mp h)) _, hout _ (fun h => hnot ((hr _).2.mp h)) _⟩
    | wakeup c k' | wakeup1 c k' => rw [hc] at hr; exact hout _ (fun h => hnot ((hr _).mp h)) _
    | choose ks =>
      rw [hc] at hr
      exact fun k' hk' => hout _ (fun h => hnot ((hr k' hk' _).mp h)) _
  wake k c l k' hk s := hwake k c l k' hk s.pipe
  free k f k' s hk _ hk' hdisjoint := by
    rcases (changes hk s).lock with hsame | hlock
    · rw [hsame]
      exact hk'
    · -- the other process does not hold the lock of the pipe
      refine hfree _ _ fun hlock' => ?_
      exact hdisjoint (some .pipe) ⟨nofun, hlock.symm⟩ ⟨nofun, hlock'.symm⟩

theorem code_eq_acquire {k k' : Loc} {l : Option Lock} (hk : code k = .acquire l k') :
    (∃ n rest, k' = .writeLoop n rest) ∨ (∃ n, k' = .readTest n) ∨
      (∃ writable, k' = .closeSet writable) ∨ k'.lock ≠ some .pipe := by
  cases k with
  | writeLoop n rest => cases rest <;> cases hk
  | intrLoop cs => cases cs <;> cases hk
  | _ => cases hk <;> simp [Loc.lock]

/-- The calls of `sleep`. -/
inductive Sleeps : Loc → Chan → Loc → Prop where
  | write (n : ℤ) (rest : List Byte) : Sleeps (.writeSleep n rest) .nwrite (.writeLoop n rest)
  | read (n : ℤ) : Sleeps (.readSleep n) .nread (.readTest n)
  | cons (target n : ℤ) (got : List Byte) :
      Sleeps (.consSleep target n got) .input (.consLoop target n got)
  | ticks (n ticks0 : Word) : Sleeps (.sleepSleep n ticks0) .ticks (.sleepLoop n ticks0)

theorem code_eq_sleep {k k' : Loc} {c : Chan} {l : Option Lock} (hk : code k = .sleep c l k') :
    Sleeps k c k' := by
  cases k with
  | writeLoop n rest => cases rest <;> cases hk
  | intrLoop cs => cases cs <;> cases hk
  | writeSleep n rest => cases hk; exact .write n rest
  | readSleep n => cases hk; exact .read n
  | consSleep target n got => cases hk; exact .cons target n got
  | sleepSleep n ticks0 => cases hk; exact .ticks n ticks0
  | _ => cases hk

/-! ### The start -/

variable [DecidableEq P] {data : Fin pipeSize → Byte} {input : Input} {ticks : Word}

theorem owned_start : Owned code holds (start P data input ticks) :=
  .init (fun _ => rfl) (fun _ => rfl) fun _ _ hx => hx.1 hx.2

end Dave.Wait
