import Dave.Proc.Table
import Dave.Lib.Run

/-!
# Processes and CPUs as a transition system

Any number of CPUs run the processes of the table. Between its sections under `ptable.lock` a
process is somewhere in the kernel or in user code; `Pos` records how far it is in `fork`, `wait`
or `sleep`. One event is one section under `ptable.lock`, or one of the two places of `fork` that
write to the new slot without the lock.

A process that gives up its CPU jumps into the loop of `scheduler`, which still holds the lock and
looks for the next process. Here the loop goes on in an event of its own, so other CPUs may come
between: every run of the source is a run of this machine. A process that is scheduled inside
`wait` scans the table again in the same section.

The exit of `initproc` is a panic, and no event.
-/

namespace Dave.Proc

open Function

/-! ### States -/

/-- How far a process is in the functions of `proc.c`. -/
inductive Pos where
  /-- outside `fork`, `wait` and `sleep`, or at the start of one of them -/
  | user
  /-- in `allocproc`, about to allocate the kernel stack of `np` -/
  | allocated (np : Slot)
  /-- in `fork`, about to copy the memory for `np` -/
  | stacked (np : Slot)
  /-- in `fork`, about to make `np` runnable -/
  | copied (np : Slot)
  /-- inside `sleep` called by `wait` -/
  | inWait
  /-- inside `sleep` called from elsewhere -/
  | inSleep
  deriving DecidableEq

/-- The slot that a process in `fork` has allocated. -/
def Pos.newborn : Pos → Option Slot
  | .allocated np | .stacked np | .copied np => some np
  | _ => none

/-- One successful return of `wait`, as the history records it: the process that called `wait`, the
pid it got, and the parent of the process with that pid at that time. -/
structure Waited where
  caller : Slot
  pid : Pid
  parent : Option Slot
  deriving DecidableEq

/-- The state of the machine, with the history of `fork` and `wait`. -/
structure Machine (C : Type) where
  table : Table
  pos : Slot → Pos
  /-- `proc` of each CPU -/
  cpu : C → Option Slot
  /-- where the loop of `scheduler` goes on -/
  next : C → ℕ
  nextpid : Pid
  /-- how many processes `allocproc` has created -/
  created : ℕ
  /-- the pids that `fork` has returned -/
  forked : List Pid
  waited : List Waited

variable {C : Type} [DecidableEq C]

/-! ### Sections of `proc.c` -/

/-- Process `p` jumps into the scheduler of CPU `c`. -/
def Machine.leave (m : Machine C) (c : C) (p : Slot) : Machine C :=
  { m with
    cpu := update m.cpu c none
    next := update m.next c (p + 1) }

/-- The entry of a slot that `wait` has reaped. -/
def Entry.reap (e : Entry) : Entry :=
  { e with pid := 0, parent := none, killed := false, state := .unused }

/-- One round of the loop of `wait` for process `p` on CPU `c`. -/
def wait (m : Machine C) (c : C) (p : Slot) : Machine C :=
  match zombieChild m.table p with
  | some s =>
    { m with
      table := update m.table s (m.table s).reap
      pos := update m.pos p .user
      waited := m.waited ++ [⟨p, (m.table s).pid, (m.table s).parent⟩] }
  | none =>
    if ¬ HasKids m.table p ∨ (m.table p).killed then
      { m with pos := update m.pos p .user }
    else
      Machine.leave
        { m with
          table := update m.table p
            { m.table p with chan := some (.proc p), state := .sleeping }
          pos := update m.pos p .inWait } c p

/-- The scheduler of CPU `c` runs process `p`, which goes on where it was. -/
def dispatch (m : Machine C) (c : C) (p : Slot) : Machine C :=
  let m' : Machine C :=
    { m with
      table := update m.table p { m.table p with state := .running }
      cpu := update m.cpu c (some p) }
  let awake : Machine C :=
    { m' with table := update m'.table p { m'.table p with chan := none } }
  match m.pos p with
  | .inSleep => { awake with pos := update m.pos p .user }
  | .inWait => wait awake c p
  | _ => m'

/-- The loop of `scheduler` on CPU `c`, until it finds a process or the end of the table. -/
def schedule (m : Machine C) (c : C) : Machine C :=
  match (List.finRange nproc).find? fun s =>
      m.next c ≤ s.val ∧ (m.table s).state = .runnable with
  | some p => dispatch m c p
  | none => { m with next := update m.next c 0 }

/-- `yield` by process `p` on CPU `c`. -/
def yield (m : Machine C) (c : C) (p : Slot) : Machine C :=
  Machine.leave
    { m with table := update m.table p { m.table p with state := .runnable } } c p

/-- `sleep(chan, lk)` by process `p` on CPU `c`, for a lock other than `ptable.lock`. -/
def sleep (m : Machine C) (c : C) (p : Slot) (chan : Chan) : Machine C :=
  Machine.leave
    { m with
      table := update m.table p { m.table p with chan := some chan, state := .sleeping }
      pos := update m.pos p .inSleep } c p

/-- The section of `allocproc`, called by `fork` of process `p`. -/
def allocproc (m : Machine C) (p : Slot) : Machine C :=
  match freeSlot m.table with
  | some np =>
    { m with
      table := update m.table np { m.table np with state := .embryo, pid := m.nextpid }
      pos := update m.pos p (.allocated np)
      nextpid := m.nextpid + 1
      created := m.created + 1 }
  | none => m

/-- `fork` of process `p` gives up: the new slot is `UNUSED` again. -/
def forkFail (m : Machine C) (p np : Slot) : Machine C :=
  { m with
    table := update m.table np { m.table np with state := .unused }
    pos := update m.pos p .user }

/-- The middle of `fork` of process `p`, after a successful `copyuvm`. -/
def forkCopy (m : Machine C) (p np : Slot) : Machine C :=
  { m with
    table := update m.table np { m.table np with parent := some p }
    pos := update m.pos p (.copied np) }

/-- The last section of `fork` of process `p`. The child starts at `forkret`. -/
def forkDone (m : Machine C) (p np : Slot) : Machine C :=
  { m with
    table := update m.table np { m.table np with state := .runnable }
    pos := update (update m.pos p .user) np .user
    forked := m.forked ++ [(m.table np).pid] }

/-- The section of `exit` for process `p` on CPU `c`. -/
def exit (m : Machine C) (c : C) (p : Slot) : Machine C :=
  let handed := exitTable p m.table
  Machine.leave
    { m with
      table := update handed p { handed p with state := .zombie }
      pos := update m.pos p .user } c p

/-! ### Steps -/

/-- The events of the machine; `ok` tells whether an allocation succeeds. -/
inductive Event (C : Type) where
  | schedule (c : C)
  | yield (c : C)
  | sleep (c : C) (chan : Chan)
  /-- `wakeup(chan)`, by a process or an interrupt -/
  | wakeup (chan : Chan)
  | kill (c : C) (pid : Pid)
  /-- `fork` up to the end of the section of `allocproc` -/
  | fork (c : C)
  /-- the allocation of the kernel stack -/
  | kstack (c : C) (ok : Bool)
  /-- `copyuvm`, and the rest of `fork` up to its last section -/
  | copyuvm (c : C) (ok : Bool)
  /-- the last section of `fork` -/
  | forkDone (c : C)
  | exit (c : C)
  | wait (c : C)

/-- The state after an event, when the event can happen. -/
def step (m : Machine C) : Event C → Option (Machine C)
  | .schedule c => if m.cpu c = none then some (schedule m c) else none
  | .yield c =>
    match m.cpu c with
    | some p => some (yield m c p)
    | none => none
  | .sleep c chan =>
    match m.cpu c with
    | some p => if m.pos p = .user then some (sleep m c p chan) else none
    | none => none
  | .wakeup chan => some { m with table := wakeup1 (some chan) m.table }
  | .kill c pid =>
    match m.cpu c with
    | some p => if m.pos p = .user then some { m with table := (kill m.table pid).2 } else none
    | none => none
  | .fork c =>
    match m.cpu c with
    | some p => if m.pos p = .user then some (allocproc m p) else none
    | none => none
  | .kstack c ok =>
    match m.cpu c with
    | some p =>
      match m.pos p with
      | .allocated np =>
        some (if ok then { m with pos := update m.pos p (.stacked np) }
          else forkFail m p np)
      | _ => none
    | none => none
  | .copyuvm c ok =>
    match m.cpu c with
    | some p =>
      match m.pos p with
      | .stacked np => some (if ok then forkCopy m p np else forkFail m p np)
      | _ => none
    | none => none
  | .forkDone c =>
    match m.cpu c with
    | some p =>
      match m.pos p with
      | .copied np => some (forkDone m p np)
      | _ => none
    | none => none
  | .exit c =>
    match m.cpu c with
    | some p => if m.pos p = .user ∧ p ≠ initproc then some (exit m c p) else none
    | none => none
  | .wait c =>
    match m.cpu c with
    | some p => if m.pos p = .user then some (wait m c p) else none
    | none => none

/-- A run of the machine from `m₀`, with the events that happened. -/
abbrev Run (m₀ : Machine C) : List (Event C) → Machine C → Prop := Dave.Run step anyEvent m₀

/-- The machine after `userinit`: the first slot holds `initproc`, and every other slot is as it was
when the kernel was loaded. -/
def boot : Machine C where
  table s :=
    if s = initproc then ⟨.runnable, 1, none, none, false⟩ else ⟨.unused, 0, none, none, false⟩
  pos _ := .user
  cpu _ := none
  next _ := 0
  nextpid := 2
  created := 1
  forked := []
  waited := []

end Dave.Proc
