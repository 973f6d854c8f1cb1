import Dave.Wait.Code

/-!
# Sleepers on a pipe

Readers sleep on `&p->nread` until the pipe has bytes or its write end is closed, writers on
`&p->nwrite` until it has room or its read end is closed. Whoever changes that wakes them up before
it releases the lock of the pipe, with one exception: a `pipewrite` that finds the pipe full and
gives up, because its process has been killed or the read end is closed, returns without the wakeup
for the bytes it has stored.
-/

namespace Dave.Wait

open Monitor

/-! ### What the sleepers have seen -/

/-- What a process that is about to sleep on the pipe has seen. -/
def Waits : Loc → Pipe → Prop
  | .readKilled _, p | .readSleep _, p => p.empty = true ∧ p.writeopen = true
  | .writeFull _ _, p => p.full = true
  | .writeKilled _ _, p | .writeWake _ _, p | .writeSleep _ _, p =>
    p.full = true ∧ p.readopen = true
  | _, _ => True

variable {k : Loc}

theorem Waits.of_lock (hk : k.lock ≠ some .pipe) (p : Pipe) : Waits k p := by
  cases k with
  | readKilled | readSleep | writeFull | writeKilled | writeWake | writeSleep => exact absurd rfl hk
  | _ => trivial

theorem waits_asserts : Asserts code holds fun k s => Waits k s.pipe := by
  refine asserts_of_pipe (fun _ p hk => .of_lock hk p) (fun k l k' hk p => ?_)
    (fun k c l k' hk p => ?_) fun k s hlock hk => ?_
  · rcases code_eq_acquire hk with ⟨n, rest, rfl⟩ | ⟨n, rfl⟩ | ⟨w, rfl⟩ | hout
    · trivial
    · trivial
    · trivial
    · exact .of_lock hout p
  · cases code_eq_sleep hk <;> trivial
  · cases k with
    | readTest n =>
      by_cases hwait : (s.pipe.empty && s.pipe.writeopen) = true
      · simp only [code, Keeps, if_pos hwait]
        simpa [Waits] using hwait
      · simp only [code, Keeps, if_neg hwait, Waits]
    | readCopy n got =>
      by_cases hcopy : (got.length : ℤ) < n ∧ s.pipe.empty = false
      · simp only [code, Keeps, if_pos hcopy, Waits]
      · simp only [code, Keeps, if_neg hcopy, Waits]
    | writeLoop n rest =>
      cases rest with
      | nil => trivial
      | cons b rest =>
        by_cases hfull : s.pipe.full = true <;> simp [code, Keeps, hfull, Waits]
    | writeFull n rest =>
      have hfull : s.pipe.full = true := hk
      by_cases hopen : s.pipe.readopen = true <;> simp [code, Keeps, hfull, hopen, Waits]
    | writeKilled | readKilled => exact ⟨trivial, hk⟩
    | writeWake => exact hk
    | writeSleep | writeFail | writeDone | writeRelease | readSleep | readFail | readWake
    | readRelease | closeSet | closeWake | closeTest | closeRelease => trivial
    | _ => cases hlock

/-! ### Who owes a wakeup -/

/-- What the readers wait for. -/
def Readable (s : Shared) : Prop := s.pipe.empty = false ∨ s.pipe.writeopen = false

/-- What the writers wait for. -/
def Writable (s : Shared) : Prop := s.pipe.full = false ∨ s.pipe.readopen = false

/-- From here the code leads to a wakeup of the readers, or gives up. -/
def Loc.WakesReaders : Loc → Prop
  | .writeLoop _ _ | .writeFull _ _ | .writeKilled _ _ | .writeWake _ _ | .writeDone _ => True
  | .closeWake writable => writable = true
  | _ => False

/-- From here the code leads to a wakeup of the writers. -/
def Loc.WakesWriters : Loc → Prop
  | .readCopy _ _ | .readWake _ _ => True
  | .closeWake writable => writable = false
  | _ => False

theorem Loc.WakesReaders.lock (h : k.WakesReaders) : k.lock = some .pipe := by
  cases k with
  | writeLoop | writeFull | writeKilled | writeWake | writeDone | closeWake => rfl
  | _ => exact h.elim

theorem Loc.WakesWriters.lock (h : k.WakesWriters) : k.lock = some .pipe := by
  cases k with
  | readCopy | readWake | closeWake => rfl
  | _ => exact h.elim

variable {s : Shared} {k' : Loc} {s' : Shared}

theorem Changes.readable (hc : Changes s k s'.pipe k') (hr : Readable s') (hn : ¬ Readable s) :
    k'.WakesReaders := by
  obtain ⟨hempty, hopen⟩ : s.pipe.empty = true ∧ s.pipe.writeopen = true := by
    simpa [Readable] using hn
  generalize hp : s'.pipe = p' at hc
  rw [Readable, hp] at hr
  cases hc with
  | same => exact absurd hr hn
  | store => trivial
  | take n got hne => rw [hempty] at hne; cases hne
  | close writable =>
    cases writable with
    | true => rfl
    | false => exact absurd hr hn

theorem Changes.writable (hc : Changes s k s'.pipe k') (hr : Writable s') (hn : ¬ Writable s) :
    k'.WakesWriters := by
  obtain ⟨hfull, hopen⟩ : s.pipe.full = true ∧ s.pipe.readopen = true := by
    simpa [Writable] using hn
  generalize hp : s'.pipe = p' at hc
  rw [Writable, hp] at hr
  cases hc with
  | same => exact absurd hr hn
  | store n b rest hne => rw [hfull] at hne; cases hne
  | take => trivial
  | close writable =>
    cases writable with
    | true => exact absurd hr hn
    | false => rfl

theorem Loc.WakesWriters.leads (h : k.WakesWriters) {marked : Bool}
    (hk : (code k).Leads s marked k') (hwake : ∀ k', code k ≠ .wakeup .nwrite k') :
    k'.WakesWriters := by
  cases k with
  | readCopy n got =>
    by_cases hcopy : (got.length : ℤ) < n ∧ s.pipe.empty = false
    · simp only [code, Act.Leads, if_pos hcopy] at hk
      rw [hk]
      trivial
    · simp only [code, Act.Leads, if_neg hcopy] at hk
      rw [hk]
      trivial
  | readWake n got => exact absurd rfl (hwake _)
  | closeWake writable =>
    obtain rfl : writable = false := h
    exact absurd rfl (hwake _)
  | _ => exact h.elim

variable {P : Type}

/-- A `pipewrite` has found the pipe full and gives up in its next step. -/
def GivesUp (m : State P Lock Chan Shared Loc) (p : P) : Prop :=
  match m.loc p with
  | .writeFull _ _ => m.shared.pipe.readopen = false
  | .writeKilled _ _ => m.mark p = true
  | _ => False

/-- When a `pipewrite` gives up, nobody sleeps on `&p->nread` or is inside `sleep` on the way
there. -/
def Heard (m : State P Lock Chan Shared Loc) (e : Event P Loc) : Prop :=
  ∀ p, e = .go p → m.status p = .run → GivesUp m p → ∀ q, ¬ (m.status q).On .nread

variable {m : State P Lock Chan Shared Loc}

theorem Loc.WakesReaders.leads {p : P} (h : (m.loc p).WakesReaders)
    (hk : (code (m.loc p)).Leads m.shared (m.mark p) k')
    (hwake : ∀ k', code (m.loc p) ≠ .wakeup .nread k') (hgoes : ¬ GivesUp m p) :
    k'.WakesReaders := by
  unfold GivesUp at hgoes
  cases hloc : m.loc p with
  | writeLoop n rest =>
    rw [hloc] at hk
    cases rest with
    | nil =>
      obtain rfl : k' = .writeDone n := hk
      trivial
    | cons b rest =>
      by_cases hfull : m.shared.pipe.full = true
      · simp only [code, Act.Leads, if_pos hfull] at hk
        rw [hk]
        trivial
      · simp only [code, Act.Leads, if_neg hfull] at hk
        rw [hk]
        trivial
  | writeFull n rest =>
    simp only [hloc, Bool.not_eq_false] at hgoes
    rw [hloc] at hk
    simp only [code, Act.Leads, hgoes, if_true] at hk
    rw [hk]
    trivial
  | writeKilled n rest =>
    simp only [hloc, Bool.not_eq_true] at hgoes
    rw [hloc] at hk
    simp only [code, Act.Leads, hgoes] at hk
    rw [hk]
    trivial
  | writeWake n rest | writeDone n => rw [hloc] at hwake; exact absurd rfl (hwake _)
  | closeWake writable =>
    rw [hloc] at h hwake
    obtain rfl : writable = true := h
    exact absurd rfl (hwake _)
  | _ => rw [hloc] at h; exact h.elim

/-! ### The invariant -/

variable [DecidableEq P] {data : Fin pipeSize → Byte} {input : Input} {ticks : Word}

structure PipeInv (m : State P Lock Chan Shared Loc) : Prop where
  owned : Owned code holds m
  waits : Asserted (fun k s => Waits k s.pipe) m
  readers : Covered .nread Readable Loc.WakesReaders m
  writers : Covered .nwrite Writable Loc.WakesWriters m

theorem PipeInv.start : PipeInv (start P data input ticks) where
  owned := owned_start
  waits _ _ := trivial
  readers _ hq := hq.elim
  writers _ hq := hq.elim

theorem code_eq_choose {ks : Loc → Bool} (hk : code k = .choose ks) : k = .idle := by
  cases k with
  | idle => rfl
  | writeLoop n rest => cases rest <;> cases hk
  | intrLoop cs => cases cs <;> cases hk
  | _ => cases hk

theorem PipeInv.step {m' : State P Lock Chan Shared Loc} {e : Event P Loc} (h : PipeInv m)
    (hheard : Heard m e) (hs : step code m e = some m') : PipeInv m' where
  owned := h.owned.step respects hs
  waits := h.waits.step waits_asserts h.owned hs
  readers := by
    refine h.readers.step h.owned hs (fun k ks hk => ?_) (fun k c l k' hk => ?_)
      (fun p l k hp hk => ?_) (fun p f hp hk hr hn => (changes hk _).readable hr hn)
      fun p k he hp howes hnext hon hk _ _ => ?_
    · rw [code_eq_choose hk]
      exact id
    · cases code_eq_sleep hk <;> exact id
    · -- a reader sleeps when it has seen an empty pipe
      have hwaits := h.waits p hp
      generalize hloc : m.loc p = k₀ at hk hwaits
      cases code_eq_sleep hk with
      | read n => simpa [Readable, Waits] using hwaits
    · refine howes.leads hnext hk fun hgives => ?_
      obtain ⟨q, hq⟩ := hon
      exact hheard p he hp hgives q hq
  writers := by
    refine h.writers.step h.owned hs (fun k ks hk => ?_) (fun k c l k' hk => ?_)
      (fun p l k hp hk => ?_) (fun p f hp hk hr hn => (changes hk _).writable hr hn)
      fun p k he hp howes hnext hon hk _ _ => howes.leads hnext hk
    · rw [code_eq_choose hk]
      exact id
    · cases code_eq_sleep hk <;> exact id
    · -- a writer sleeps when it has seen a full pipe
      have hwaits := h.waits p hp
      generalize hloc : m.loc p = k₀ at hk hwaits
      cases code_eq_sleep hk with
      | write n rest => simpa [Writable, Waits] using hwaits

theorem PipeInv.run {es : List (Event P Loc)}
    (hr : Run (Monitor.step code) Heard (Wait.start P data input ticks) es m) : PipeInv m :=
  hr.invariant .start fun h hok hs => h.step hok hs

omit [DecidableEq P] in
theorem PipeInv.lock_ne (h : PipeInv m) (hfree : m.lock (some .pipe) = none) {r : P}
    (hr : m.status r = .run) : (m.loc r).lock ≠ some .pipe := by
  intro hlock
  have hheld : m.lock (some .pipe) = some r := h.owned.lock_iff.mpr (by
    rw [hr]
    exact ⟨nofun, hlock.symm⟩)
  rw [hfree] at hheld
  cases hheld

/-- **Nobody is stranded.** Let nobody sleep on `&p->nread` whenever a `pipewrite` gives up on a
full pipe. Then in every state reached in which the lock of the pipe is free, a process asleep on
`&p->nread` sleeps because the pipe is empty and its write end open, and one asleep on `&p->nwrite`
because the pipe is full and its read end open. -/
theorem not_stranded {es : List (Event P Loc)} {m : State P Lock Chan Shared Loc}
    (hr : Run (step code) Heard (start P data input ticks) es m)
    (hfree : m.lock (some .pipe) = none) (p : P) :
    ((m.status p).isAsleep .nread = true →
      m.shared.pipe.nread = m.shared.pipe.nwrite ∧ m.shared.pipe.writeopen = true) ∧
    ((m.status p).isAsleep .nwrite = true →
      m.shared.pipe.nwrite = m.shared.pipe.nread + BitVec.ofNat 32 pipeSize ∧
      m.shared.pipe.readopen = true) := by
  have h := PipeInv.run hr
  constructor
  · intro hp
    obtain ⟨l, k, hst⟩ := Status.isAsleep_iff.mp hp
    have hnot : ¬ Readable m.shared := fun hready => by
      obtain ⟨r, hrun, howes⟩ := h.readers p (by rw [hst]; rfl) hready
      exact h.lock_ne hfree hrun howes.lock
    simpa [Readable, Pipe.empty] using hnot
  · intro hp
    obtain ⟨l, k, hst⟩ := Status.isAsleep_iff.mp hp
    have hnot : ¬ Writable m.shared := fun hready => by
      obtain ⟨r, hrun, howes⟩ := h.writers p (by rw [hst]; rfl) hready
      exact h.lock_ne hfree hrun howes.lock
    simpa [Writable, Pipe.full] using hnot

/-- No `pipewrite` gives up. -/
def calm (m : State P Lock Chan Shared Loc) : Event P Loc → Bool
  | .go p =>
    match m.loc p with
    | .writeFull _ _ => m.shared.pipe.readopen
    | .writeKilled _ _ => !m.mark p
    | _ => true
  | _ => true

omit [DecidableEq P] in
theorem heard_of_calm {e : Event P Loc} (h : calm m e = true) : Heard m e := by
  rintro p rfl - hgives
  unfold GivesUp at hgives
  simp only [calm] at h
  split at hgives
  · next hloc => rw [hloc] at h; rw [hgives] at h; cases h
  · next hloc => rw [hloc] at h; rw [hgives] at h; cases h
  · exact hgives.elim

/-- A reader sleeps on the empty pipe; a writer that has been killed writes a byte, which fits; the
reader returns it, calls `piperead` again and sleeps again. -/
def killedWriterFits : List (Event Bool Loc) :=
  [.pick false (.readAcquire 1), .go false, .go false, .go false, .go false, .go false, .go false,
    .mark true, .pick true (.writeAcquire 1 [7]), .go true, .go true, .go true, .go true, .go true,
    .go false, .go false, .go false, .go false, .go false, .go false, .go false,
    .pick false (.readAcquire 1), .go false, .go false, .go false, .go false, .go false, .go false]

theorem not_stranded_killedWriterFits : ∃ m : State Bool Lock Chan Shared Loc,
    Run (step code) Heard (start Bool (fun _ => 0) ⟨fun _ => 0, 0, 0, 0⟩ 0) killedWriterFits m ∧
    m.lock (some .pipe) = none ∧ (m.status false).isAsleep .nread = true ∧
    m.shared.pipe.nread = m.shared.pipe.nwrite ∧ m.shared.pipe.writeopen = true := by
  have hexec : (killedWriterFits.foldlM (guarded (step code) fun m e => calm m e = true)
      (start Bool (fun _ => 0) ⟨fun _ => 0, 0, 0, 0⟩ 0)).map
        (fun m => (m.lock (some .pipe), (m.status false).isAsleep .nread)) = some (none, true) := by
    decide +kernel
  obtain ⟨m, hm, heq⟩ := Option.map_eq_some_iff.mp hexec
  have hrun := (Run.of_foldlM hm).mono fun _ _ => heard_of_calm
  have hfree : m.lock (some .pipe) = none := congrArg Prod.fst heq
  have hsleep : (m.status false).isAsleep .nread = true := congrArg Prod.snd heq
  exact ⟨m, hrun, hfree, hsleep, (not_stranded hrun hfree false).1 hsleep⟩

/-- A reader sleeps on the empty pipe; a writer that has been killed stores `PIPESIZE` bytes, finds
the pipe full and returns. -/
def killedWriterFills : List (Event Bool Loc) :=
  [.pick false (.readAcquire 1), .go false, .go false, .go false, .go false, .go false, .go false,
    .mark true, .pick true (.writeAcquire 513 (List.replicate 513 7))] ++
    List.replicate 517 (.go true)

/-- The reader sleeps on, with nobody left to wake it up, although the pipe is full. -/
theorem reader_stranded : ∃ m : State Bool Lock Chan Shared Loc,
    Run (step code) anyEvent (start Bool (fun _ => 0) ⟨fun _ => 0, 0, 0, 0⟩ 0)
      killedWriterFills m ∧
    m.lock (some .pipe) = none ∧ (m.status false).isAsleep .nread = true ∧
    ¬ (m.shared.pipe.nread = m.shared.pipe.nwrite ∧ m.shared.pipe.writeopen = true) := by
  have hexec : (killedWriterFills.foldlM (guarded (step code) anyEvent)
      (start Bool (fun _ => 0) ⟨fun _ => 0, 0, 0, 0⟩ 0)).map
        (fun m => (m.lock (some .pipe), (m.status false).isAsleep .nread,
          decide (m.shared.pipe.nread = m.shared.pipe.nwrite))) = some (none, true, false) := by
    decide +kernel
  obtain ⟨m, hm, heq⟩ := Option.map_eq_some_iff.mp hexec
  refine ⟨m, Run.of_foldlM hm, congrArg Prod.fst heq, congrArg (fun x => x.2.1) heq, fun h => ?_⟩
  exact of_decide_eq_false (congrArg (fun x => x.2.2) heq) h.1

end Dave.Wait
