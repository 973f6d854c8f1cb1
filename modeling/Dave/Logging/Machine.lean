import Dave.Lib.Run
import Dave.Logging.Header
import Mathlib.Data.Fintype.Card
import Mathlib.Data.Finset.Card
import Mathlib.Logic.Function.Basic

/-!
# The logging system as a transition system

The functions of `log.c` run by any number of processes over one disk, with crashes. A state
holds the disk, the buffer cache, `struct log`, and for every process how far it is in its
operation. One event is one step:

* a critical section under `log.lock` (`beginOp`, `logWrite`, `endOp` and the last section of
  `end_op`, which is the last step of a commit);
* one block write of `write_log`, `write_head` or `install_trans`, made by a commit or by the
  recovery at boot;
* the buffer cache reading a block or recycling a clean buffer;
* a crash, which loses everything but the disk.

`log_write` tests the size of the log before it takes `log.lock`; here the test and the section
are one step, together with the change of the buffer that precedes the call.

The state also records the history the properties speak of: the updates made by the operations
of the current transaction, all updates ever made, and the transactions whose first `write_head`
reached the disk.
-/

namespace Dave.Logging

open Function

/-! ### The disk and the buffer cache -/

/-- A buffer that is in the cache with `B_VALID` set: its data and its flag `B_DIRTY`. -/
structure Buf where
  data : Block
  dirty : Bool

/-- The disk, and the buffers of the cache by block number. -/
structure Store where
  disk : ℕ → Block
  cache : ℕ → Option Buf

namespace Store

/-- `bread`: the contents of block `b`, read from the disk when it is not in the cache. -/
def bread (st : Store) (b : ℕ) : Block × Store :=
  match st.cache b with
  | some buf => (buf.data, st)
  | none => (st.disk b, { st with cache := update st.cache b (some ⟨st.disk b, false⟩) })

/-- `bwrite`: the buffer of block `b` is set to `data` and written to the disk, which clears
`B_DIRTY`. -/
def bwrite (st : Store) (b : ℕ) (data : Block) : Store where
  disk := update st.disk b data
  cache := update st.cache b (some ⟨data, false⟩)

/-- The buffer of block `b` is set to `data` and pinned with `B_DIRTY`, as `log_write` leaves it. -/
def pin (st : Store) (b : ℕ) (data : Block) : Store :=
  { st with cache := update st.cache b (some ⟨data, true⟩) }

/-- The contents of block `b` that a process reads: the buffer if there is one, else the disk. -/
def view (st : Store) (b : ℕ) : Block := (st.bread b).1

end Store

/-! ### The log -/

/-- `struct log`; the header `lh` is the list `block[0..n)`. -/
structure Log where
  start : ℕ
  size : ℕ
  outstanding : ℕ
  committing : Bool
  lh : List Word

namespace Log

/-- `log.lh.block[tail]`, as a block number. -/
def block (l : Log) (tail : ℕ) : ℕ := (l.lh.getD tail 0).toNat

/-- Block `b` belongs to the log area of the disk. -/
def InArea (l : Log) (b : ℕ) : Prop := l.start ≤ b ∧ b < l.start + l.size

instance (l : Log) (b : ℕ) : Decidable (l.InArea b) := inferInstanceAs (Decidable (_ ∧ _))

end Log

/-- One round of the loop of `write_log`: block `tail` of the transaction is copied from the cache
to the log. -/
def writeLog (l : Log) (tail : ℕ) (st : Store) : Store :=
  let toBuf := st.bread (l.start + tail + 1)
  let fromBuf := toBuf.2.bread (l.block tail)
  fromBuf.2.bwrite (l.start + tail + 1) fromBuf.1

/-- `write_head`: the in-memory header is written to the disk. -/
def writeHead (l : Log) (st : Store) : Store :=
  let buf := st.bread l.start
  buf.2.bwrite l.start (setHead buf.1 l.lh)

/-- One round of the loop of `install_trans`: block `tail` of the log is copied to its home. -/
def installTrans (l : Log) (tail : ℕ) (st : Store) : Store :=
  let lbuf := st.bread (l.start + tail + 1)
  let dbuf := lbuf.2.bread (l.block tail)
  dbuf.2.bwrite (l.block tail) lbuf.1

/-- `read_head`: the header is read from the disk into memory. -/
def readHead (l : Log) (st : Store) : Log × Store :=
  let buf := st.bread l.start
  ({ l with lh := headOf buf.1 }, buf.2)

/-! ### Processes and history -/

/-- One `log_write`, as the history records it. -/
structure Update where
  op : ℕ
  block : Word
  data : Block

/-- An operation between `begin_op` and `end_op`: its number in the history, the blocks it has
passed to `log_write`, and how many of them became new entries of the log. -/
structure Op where
  id : ℕ
  blocks : Finset Word
  appended : ℕ
  deriving DecidableEq

/-- How far a process is in `commit`. -/
inductive Commit where
  /-- in `write_log`, with `tail` blocks copied -/
  | writeLog (tail : ℕ)
  /-- about to write the header: the commit point -/
  | writeHead
  /-- in `install_trans`, with `tail` blocks copied -/
  | installTrans (tail : ℕ)
  /-- `log.lh.n` is zero, about to clear the header on the disk -/
  | clear
  /-- back in `end_op`, about to reset `committing` -/
  | done
  deriving DecidableEq

/-- The state of a process with respect to the log. -/
inductive Proc where
  /-- outside any operation -/
  | idle
  /-- asleep on the channel `&log` in `begin_op` -/
  | asleep
  /-- woken up in `begin_op`, about to test again -/
  | woken
  /-- between `begin_op` and `end_op` -/
  | inOp (o : Op)
  /-- inside `commit`, called by `end_op` -/
  | commit (pc : Commit)
  deriving DecidableEq

inductive Phase where
  /-- booting: about to run `read_head` -/
  | boot
  /-- recovering: in `install_trans`, with `tail` blocks copied -/
  | installTrans (tail : ℕ)
  /-- recovering: `log.lh.n` is zero, about to clear the header on the disk -/
  | clear
  /-- `recover_from_log` has completed and no process has run yet -/
  | recovered
  /-- processes run -/
  | running
  /-- stopped by `panic` -/
  | panicked
  deriving DecidableEq

variable {P : Type} [DecidableEq P]

/-- The state of the machine and its history. -/
structure Machine (P : Type) where
  store : Store
  log : Log
  phase : Phase
  proc : P → Proc
  /-- the number of the next operation -/
  nextOp : ℕ
  /-- the updates of the current transaction, in order -/
  current : List Update
  /-- all updates made since the disk was created -/
  issued : List Update
  /-- the transactions whose first `write_head` reached the disk, in order -/
  committed : List (List Update)

/-! ### Steps -/

inductive Event (P : Type) where
  /-- process `p` runs the critical section of `begin_op` once -/
  | beginOp (p : P)
  /-- process `p` stores `data` in the buffer of block `b` and calls `log_write` -/
  | logWrite (p : P) (b : Word) (data : Block)
  /-- process `p` runs the first critical section of `end_op` -/
  | endOp (p : P)
  /-- process `p` makes the next step of `commit`, or the last critical section of `end_op` -/
  | commit (p : P)
  /-- some process reads block `b` -/
  | bread (b : ℕ)
  /-- the cache recycles the buffer of block `b` -/
  | recycle (b : ℕ)
  /-- the next step of `initlog` at boot -/
  | recover
  /-- the machine stops and boots again -/
  | crash

/-- `wakeup(&log)`: every process asleep in `begin_op` becomes runnable. -/
def wakeup (proc : P → Proc) : P → Proc := fun p =>
  match proc p with
  | .asleep => .woken
  | q => q

/-- The test of `begin_op`: the log is being committed, or the new operation might exhaust the
log space. -/
def mustWait (l : Log) : Bool :=
  l.committing || decide (l.lh.length + (l.outstanding + 1) * maxOpBlocks > logSize)

/-- The critical section of `begin_op` for process `p`. -/
def beginOp (m : Machine P) (p : P) : Machine P :=
  if mustWait m.log then { m with proc := update m.proc p .asleep }
  else
    { m with
      log := { m.log with outstanding := m.log.outstanding + 1 }
      proc := update m.proc p (.inOp ⟨m.nextOp, ∅, 0⟩)
      nextOp := m.nextOp + 1 }

/-- The entries of the header after `log_write` of block `b`: an entry is reused (absorption) or
appended. -/
def absorb (lh : List Word) (b : Word) : List Word := if b ∈ lh then lh else lh ++ [b]

/-- `log_write` of block `b` by operation `o` of process `p`. -/
def logWrite (m : Machine P) (p : P) (o : Op) (b : Word) (data : Block) : Machine P :=
  if m.log.lh.length ≥ logSize ∨ m.log.lh.length ≥ m.log.size - 1 then
    { m with phase := .panicked }
  else if m.log.outstanding < 1 then { m with phase := .panicked }
  else
    { m with
      store := m.store.pin b.toNat data
      log := { m.log with lh := absorb m.log.lh b }
      proc := update m.proc p
        (.inOp ⟨o.id, insert b o.blocks, o.appended + if b ∈ m.log.lh then 0 else 1⟩)
      current := m.current ++ [⟨o.id, b, data⟩]
      issued := m.issued ++ [⟨o.id, b, data⟩] }

/-- The first critical section of `end_op` for process `p`. The last outstanding operation goes on
to `commit`, which does nothing when the log is empty. -/
def endOp (m : Machine P) (p : P) : Machine P :=
  if m.log.committing then { m with phase := .panicked }
  else if m.log.outstanding - 1 = 0 then
    { m with
      log := { m.log with outstanding := 0, committing := true }
      proc := update m.proc p
        (.commit (if 0 < m.log.lh.length then .writeLog 0 else .done)) }
  else
    { m with
      log := { m.log with outstanding := m.log.outstanding - 1 }
      proc := wakeup (update m.proc p .idle) }

/-- The next step of `commit` for process `p`. The loops of `write_log` and `install_trans` make
one block write a step, and leave the loop in a step of its own. -/
def commitStep (m : Machine P) (p : P) : Commit → Machine P
  | .writeLog tail =>
    if tail < m.log.lh.length then
      { m with
        store := writeLog m.log tail m.store
        proc := update m.proc p (.commit (.writeLog (tail + 1))) }
    else { m with proc := update m.proc p (.commit .writeHead) }
  | .writeHead =>
    { m with
      store := writeHead m.log m.store
      proc := update m.proc p (.commit (.installTrans 0))
      current := []
      committed := m.committed ++ [m.current] }
  | .installTrans tail =>
    if tail < m.log.lh.length then
      { m with
        store := installTrans m.log tail m.store
        proc := update m.proc p (.commit (.installTrans (tail + 1))) }
    else
      { m with
        log := { m.log with lh := [] }
        proc := update m.proc p (.commit .clear) }
  | .clear =>
    { m with
      store := writeHead m.log m.store
      proc := update m.proc p (.commit .done) }
  | .done =>
    { m with
      log := { m.log with committing := false }
      proc := wakeup (update m.proc p .idle) }

/-- The next step of `recover_from_log`, and then the start of the processes. -/
def recoverStep (m : Machine P) : Option (Machine P) :=
  match m.phase with
  | .boot =>
    let r := readHead m.log m.store
    some { m with log := r.1, store := r.2, phase := .installTrans 0 }
  | .installTrans tail =>
    if tail < m.log.lh.length then
      some { m with
        store := installTrans m.log tail m.store
        phase := .installTrans (tail + 1) }
    else some { m with log := { m.log with lh := [] }, phase := .clear }
  | .clear => some { m with store := writeHead m.log m.store, phase := .recovered }
  | .recovered => some { m with phase := .running }
  | .running => none
  | .panicked => none

/-- A crash: the disk stays, the cache, the log in memory and the processes are lost, and with
them the updates of the transaction that had not reached its commit point. -/
def crash (m : Machine P) : Machine P :=
  { m with
    store := { m.store with cache := fun _ => none }
    log := { m.log with outstanding := 0, committing := false, lh := [] }
    phase := .boot
    proc := fun _ => .idle
    current := [] }

/-- The state after an event, when the event can happen. An operation logs blocks outside the log
area only, and a buffer with `B_DIRTY` is not recycled. -/
def step (m : Machine P) : Event P → Option (Machine P)
  | .beginOp p =>
    match m.phase, m.proc p with
    | .running, .idle => some (beginOp m p)
    | .running, .woken => some (beginOp m p)
    | _, _ => none
  | .logWrite p b data =>
    match m.phase, m.proc p with
    | .running, .inOp o => if m.log.InArea b.toNat then none else some (logWrite m p o b data)
    | _, _ => none
  | .endOp p =>
    match m.phase, m.proc p with
    | .running, .inOp _ => some (endOp m p)
    | _, _ => none
  | .commit p =>
    match m.phase, m.proc p with
    | .running, .commit pc => some (commitStep m p pc)
    | _, _ => none
  | .bread b => if m.phase = .running then some { m with store := (m.store.bread b).2 } else none
  | .recycle b =>
    match m.store.cache b with
    | some ⟨_, false⟩ =>
      some { m with store := { m.store with cache := update m.store.cache b none } }
    | _ => none
  | .recover => recoverStep m
  | .crash => some (crash m)

/-- The steps of the machine, with what is known of the state before each. -/
inductive Step (m : Machine P) : Event P → Machine P → Prop where
  | beginOp (p : P) (hrun : m.phase = .running) (hp : m.proc p = .idle ∨ m.proc p = .woken) :
      Step m (.beginOp p) (beginOp m p)
  | logWrite (p : P) (o : Op) (b : Word) (data : Block) (hrun : m.phase = .running)
      (hp : m.proc p = .inOp o) (hb : ¬ m.log.InArea b.toNat) :
      Step m (.logWrite p b data) (logWrite m p o b data)
  | endOp (p : P) (o : Op) (hrun : m.phase = .running) (hp : m.proc p = .inOp o) :
      Step m (.endOp p) (endOp m p)
  | commit (p : P) (pc : Commit) (hrun : m.phase = .running) (hp : m.proc p = .commit pc) :
      Step m (.commit p) (commitStep m p pc)
  | bread (b : ℕ) (hrun : m.phase = .running) :
      Step m (.bread b) { m with store := (m.store.bread b).2 }
  | recycle (b : ℕ) (d : Block) (hb : m.store.cache b = some ⟨d, false⟩) : Step m (.recycle b)
        { m with store := { m.store with cache := update m.store.cache b none } }
  | recover (m' : Machine P) (hs : recoverStep m = some m') : Step m .recover m'
  | crash : Step m .crash (crash m)

theorem step_inv {m m' : Machine P} {e : Event P} (h : step m e = some m') : Step m e m' := by
  cases e with
  | beginOp p =>
    simp only [step] at h
    split at h <;> first | contradiction | cases h
    · exact .beginOp p ‹_› (.inl ‹_›)
    · exact .beginOp p ‹_› (.inr ‹_›)
  | logWrite p b data =>
    simp only [step] at h
    split at h <;> first | contradiction | skip
    split_ifs at h with hb
    cases h
    exact .logWrite p _ b data ‹_› ‹_› hb
  | endOp p =>
    simp only [step] at h
    split at h <;> first | contradiction | cases h
    exact .endOp p _ ‹_› ‹_›
  | commit p =>
    simp only [step] at h
    split at h <;> first | contradiction | cases h
    exact .commit p _ ‹_› ‹_›
  | bread b =>
    simp only [step] at h
    split_ifs at h with hrun
    cases h
    exact .bread b hrun
  | recycle b =>
    simp only [step] at h
    split at h <;> first | contradiction | cases h
    exact .recycle b _ ‹_›
  | recover => exact .recover m' h
  | crash =>
    cases h
    exact .crash

/-- A run of the machine from `m₀`, with the events that happened. -/
abbrev Run : Machine P → List (Event P) → Machine P → Prop := Dave.Run step anyEvent

/-- The transaction that an event makes durable: the event is the first `write_head` of a commit,
and the transaction holds the updates made since the one before it. -/
def headWrite (m : Machine P) : Event P → List (List Update)
  | .commit p =>
    match m.proc p with
    | .commit .writeHead => [m.current]
    | _ => []
  | _ => []

/-- The transactions whose first `write_head` reached the disk during the events of a run. -/
def headWrites (m : Machine P) : List (Event P) → List (List Update)
  | [] => []
  | e :: es =>
    match step m e with
    | none => []
    | some m' => headWrite m e ++ headWrites m' es

/-- The machine before its first boot from the disk that `mkfs` made: the header on the disk
records no block, nothing is in memory and nothing has happened. -/
structure Initial (m : Machine P) : Prop where
  head : (m.store.disk m.log.start).word 0 = 0
  cache : m.store.cache = fun _ => none
  phase : m.phase = .boot
  proc : m.proc = fun _ => .idle
  outstanding : m.log.outstanding = 0
  committing : m.log.committing = false
  lh : m.log.lh = []
  size_pos : 0 < m.log.size
  current : m.current = []
  issued : m.issued = []
  committed : m.committed = []

end Dave.Logging
