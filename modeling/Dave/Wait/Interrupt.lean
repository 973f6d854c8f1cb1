import Dave.Wait.Code

/-!
# Kills at interruptible waits

The wait loops of `piperead`, `pipewrite`, `consoleread` and `sys_sleep` test `killed` before they
call `sleep`. The test is made under the lock of the pipe, the console or the clock, which `kill`
does not take: between the test and the moment `sleep` has taken `ptable.lock`, a `kill` finds the
process running, sets `killed` and does not wake it up later.
-/

namespace Dave.Wait

open Monitor

/-- The process has found `killed` zero and is about to call `sleep`; a `pipewrite` wakes up the
readers in between. -/
def Loc.Window : Loc → Prop
  | .writeWake _ _ | .writeSleep _ _ | .readSleep _ | .consSleep _ _ _ | .sleepSleep _ _ => True
  | _ => False

theorem Sleeps.window {k k' : Loc} {c : Chan} (h : Sleeps k c k') : k.Window := by
  cases h <;> trivial

theorem enters : Enters code Loc.Window := by
  intro k
  cases k with
  | idle =>
    intro k' hk' hw
    cases k' with
    | writeWake | writeSleep | readSleep | consSleep | sleepSleep => cases hk'
    | _ => exact hw.elim
  | writeLoop n rest =>
    cases rest with
    | nil => exact fun _ => id
    | cons b rest =>
      intro s hw
      by_cases hfull : s.pipe.full = true <;> simp [hfull, Loc.Window] at hw
  | writeFull n rest =>
    intro s hw
    by_cases hopen : s.pipe.readopen = true <;> simp [hopen, Loc.Window] at hw
  | readTest n | readCopy n got | consLoop target n got =>
    intro s hw
    dsimp only at hw
    split_ifs at hw <;> exact hw
  | intrLoop cs =>
    cases cs with
    | nil => exact fun _ => id
    | cons c cs =>
      intro s hw
      dsimp only at hw
      split_ifs at hw <;> exact hw
  | sleepLoop n ticks0 =>
    intro s hw
    dsimp only at hw
    split_ifs at hw <;> exact hw
  | writeWake n rest => exact fun _ => trivial
  | closeSet | closeTest | sleepStart | tickAdd => exact fun _ => id
  | _ => exact id

variable {P : Type}

/-- `kill` does not hit a process that has found `killed` zero before `sleep` has taken
`ptable.lock`. -/
def Timely (m : State P Lock Chan Shared Loc) (e : Event P Loc) : Prop :=
  ∀ p, e = .mark p → m.status p = .run → ¬ (m.loc p).Window

variable [DecidableEq P] {data : Fin pipeSize → Byte} {input : Input} {ticks : Word}

structure KillInv (m : State P Lock Chan Shared Loc) : Prop where
  owned : Owned code holds m
  unmarked : Unmarked Loc.Window m

theorem KillInv.start : KillInv (start P data input ticks) where
  owned := owned_start
  unmarked _ hw := hw.elim

variable {m : State P Lock Chan Shared Loc} {e : Event P Loc}

theorem KillInv.step {m' : State P Lock Chan Shared Loc} (h : KillInv m) (htimely : Timely m e)
    (hs : step code m e = some m') : KillInv m' where
  owned := h.owned.step respects hs
  unmarked := h.unmarked.step h.owned hs enters htimely

theorem KillInv.run {es : List (Event P Loc)}
    (hr : Run (Monitor.step code) Timely (Wait.start P data input ticks) es m) : KillInv m :=
  hr.invariant .start fun h hok hs => h.step hok hs

/-- **No kill is lost.** Let no `kill` hit a process between its test of `killed` and the moment
`sleep` has taken `ptable.lock`. Then in every state reached, a process asleep on the channel of one
of the wait loops has not been killed. -/
theorem kill_not_lost {es : List (Event P Loc)} {m : State P Lock Chan Shared Loc}
    (hr : Run (step code) Timely (start P data input ticks) es m) {p : P} {c : Chan}
    (hp : (m.status p).isAsleep c = true) : m.mark p = false := by
  have h := KillInv.run hr
  obtain ⟨l, k, hst⟩ := Status.isAsleep_iff.mp hp
  have hcode : code (m.loc p) = .sleep c l k := by
    have := h.owned.atSleep p
    rwa [hst] at this
  exact h.unmarked p (code_eq_sleep hcode).window (by rw [hst]; rfl)

/-- `kill` hits no process whose location is in the window. -/
def killsOutside (m : State P Lock Chan Shared Loc) : Event P Loc → Bool
  | .mark p =>
    match m.loc p with
    | .writeWake _ _ | .writeSleep _ _ | .readSleep _ | .consSleep _ _ _ | .sleepSleep _ _ => false
    | _ => true
  | _ => true

omit [DecidableEq P] in
theorem timely_of_killsOutside (h : killsOutside m e = true) : Timely m e := by
  rintro p rfl -
  simp only [killsOutside] at h
  cases hloc : m.loc p <;> rw [hloc] at h <;> first | exact id | cases h

/-- A reader is killed before it tests `killed` and returns; another one sleeps. -/
def killThenSleep : List (Event Bool Loc) :=
  [.pick true (.readAcquire 1), .go true, .go true, .mark true, .go true, .go true,
    .pick false (.sleepAcquire 3), .go false, .go false, .go false, .go false, .go false, .go false,
    .go false]

theorem kill_not_lost_killThenSleep : ∃ m : State Bool Lock Chan Shared Loc,
    Run (step code) Timely (start Bool (fun _ => 0) ⟨fun _ => 0, 0, 0, 0⟩ 0) killThenSleep m ∧
    m.mark true = true ∧ (m.status false).isAsleep .ticks = true ∧ m.mark false = false := by
  have hexec : (killThenSleep.foldlM (guarded (step code) fun m e => killsOutside m e = true)
      (start Bool (fun _ => 0) ⟨fun _ => 0, 0, 0, 0⟩ 0)).map
        (fun m => (m.mark true, (m.status false).isAsleep .ticks)) = some (true, true) := by
    decide +kernel
  obtain ⟨m, hm, heq⟩ := Option.map_eq_some_iff.mp hexec
  have hrun := (Run.of_foldlM hm).mono fun _ _ => timely_of_killsOutside
  have hsleep : (m.status false).isAsleep .ticks = true := congrArg Prod.snd heq
  exact ⟨m, hrun, congrArg Prod.fst heq, hsleep, kill_not_lost hrun hsleep⟩

/-- A reader finds the pipe empty and `killed` zero, is killed, and goes on to sleep. -/
def killBeforeSleep : List (Event Bool Loc) :=
  [.pick true (.readAcquire 1), .go true, .go true, .go true, .mark true, .go true, .go true,
    .go true]

/-- The reader sleeps although it has been killed. -/
theorem kill_lost : ∃ m : State Bool Lock Chan Shared Loc,
    Run (step code) anyEvent (start Bool (fun _ => 0) ⟨fun _ => 0, 0, 0, 0⟩ 0) killBeforeSleep m ∧
    (m.status true).isAsleep .nread = true ∧ m.mark true = true := by
  have hexec : (killBeforeSleep.foldlM (guarded (step code) anyEvent)
      (start Bool (fun _ => 0) ⟨fun _ => 0, 0, 0, 0⟩ 0)).map
        (fun m => ((m.status true).isAsleep .nread, m.mark true)) = some (true, true) := by
    decide +kernel
  obtain ⟨m, hm, heq⟩ := Option.map_eq_some_iff.mp hexec
  exact ⟨m, Run.of_foldlM hm, congrArg Prod.fst heq, congrArg Prod.snd heq⟩

end Dave.Wait
