import Dave.Lib.Run
import Mathlib.Logic.Function.Basic
import Mathlib.Tactic.Common
import Mathlib.Tactic.Simps.Basic

/-!
# Processes with locks, sleep and wakeup

A small language for code that runs in many processes over shared state. A location of the code
says what a process does there: take or release a lock, access the shared state, test whether it
has been interrupted, sleep on a channel or wake up those who sleep on one.

There is one lock, written `none`, that protects the sleepers. A process that sleeps with another
lock takes this lock first, then drops the other one, and only then sleeps; a process that sleeps
with this lock itself keeps it until it sleeps. Waking up takes this lock for its whole duration.
All other locks and all steps in between are visible to the other processes, so the steps here are
those of a machine that takes and releases locks one at a time.

An interrupt marks a process and wakes it up if it sleeps.
-/

namespace Dave.Monitor

open Function

/-! ### Code -/

/-- What a process does at a location, and where it goes on. -/
inductive Act (L C S K : Type) where
  | acquire (l : Option L) (k : K)
  | release (l : Option L) (k : K)
  | access (f : S → S × K)
  | interrupted (yes no : K)
  | sleep (c : C) (l : Option L) (k : K)
  /-- wake up the sleepers on `c`, taking the lock of the sleepers -/
  | wakeup (c : C) (k : K)
  /-- wake up the sleepers on `c`, holding the lock of the sleepers -/
  | wakeup1 (c : C) (k : K)
  | choose (ks : K → Bool)

/-- Where a process goes on after the action, other than `sleep`, in a shared state and with a
mark. -/
def Act.Leads {L C S K : Type} (s : S) (marked : Bool) (k : K) : Act L C S K → Prop
  | .acquire _ k' | .release _ k' | .wakeup _ k' | .wakeup1 _ k' => k = k'
  | .access f => k = (f s).2
  | .interrupted yes no => k = if marked then yes else no
  | .sleep _ _ _ => False
  | .choose ks => ks k = true

/-- How far a process is in a call of `sleep`; the location where it goes on afterwards is `k`. -/
inductive Status (L C K : Type) where
  /-- not in `sleep` -/
  | run
  /-- has the lock of the sleepers, about to drop `l` -/
  | drop (c : C) (l : L) (k : K)
  /-- has dropped `l`, about to sleep -/
  | fall (c : C) (l : L) (k : K)
  | asleep (c : C) (l : Option L) (k : K)
  /-- woken up, about to leave the sleepers -/
  | awake (l : Option L) (k : K)
  /-- about to take `l` again -/
  | back (l : L) (k : K)

/-- The processes and what they share. -/
structure State (P L C S K : Type) where
  shared : S
  lock : Option L → Option P
  status : P → Status L C K
  loc : P → K
  mark : P → Bool

variable {P L C S K : Type} [DecidableEq P] [DecidableEq L] [DecidableEq C]

namespace State

/-- Process `p` goes on at `k`. -/
@[simps -fullyApplied shared lock status mark]
def goto (m : State P L C S K) (p : P) (k : K) : State P L C S K :=
  { m with loc := update m.loc p k }

@[simps -fullyApplied shared status loc mark]
def setLock (m : State P L C S K) (l : Option L) (o : Option P) : State P L C S K :=
  { m with lock := update m.lock l o }

@[simps -fullyApplied shared lock loc mark]
def setStatus (m : State P L C S K) (p : P) (s : Status L C K) : State P L C S K :=
  { m with status := update m.status p s }

end State

/-- The process is asleep on `c`. -/
def Status.isAsleep (c : C) : Status L C K → Bool
  | .asleep c' _ _ => c' = c
  | _ => false

omit [DecidableEq L] in
theorem Status.isAsleep_iff {c : C} {s : Status L C K} :
    s.isAsleep c = true ↔ ∃ l k, s = .asleep c l k := by
  cases s <;> simp [Status.isAsleep]

/-- A sleeper on `c` that is woken up. -/
def Status.wake (c : C) : Status L C K → Status L C K
  | .asleep c' l k => if c' = c then .awake l k else .asleep c' l k
  | s => s

/-- A sleeper that is interrupted. -/
def Status.interrupt : Status L C K → Status L C K
  | .asleep _ l k => .awake l k
  | s => s

/-- All sleepers on `c` are woken up. -/
@[simps -fullyApplied shared lock loc mark]
def State.wake (m : State P L C S K) (c : C) : State P L C S K :=
  { m with status := fun q => (m.status q).wake c }

section Simp

variable (m : State P L C S K) (p : P) (k : K) (l : Option L) (o : Option P) (s : Status L C K)
  (c : C)

section

omit [DecidableEq L] [DecidableEq C]

@[simp] theorem State.goto_loc_self : (m.goto p k).loc p = k := update_self ..

theorem State.goto_loc_of_ne {q : P} (hq : q ≠ p) : (m.goto p k).loc q = m.loc q :=
  update_of_ne hq ..

@[simp] theorem State.setStatus_status_self : (m.setStatus p s).status p = s :=
  update_self ..

theorem State.setStatus_status_of_ne {q : P} (hq : q ≠ p) :
    (m.setStatus p s).status q = m.status q := update_of_ne hq ..

end

omit [DecidableEq P] [DecidableEq L] in
@[simp] theorem State.wake_status : (m.wake c).status p = (m.status p).wake c := rfl

omit [DecidableEq L] in
@[simp] theorem Status.wake_run : (Status.run : Status L C K).wake c = .run := rfl

end Simp

/-- The events: a process makes its next step, chooses where to go on, or is interrupted. -/
inductive Event (P K : Type) where
  | go (p : P)
  | pick (p : P) (k : K)
  | mark (p : P)

/-- The state after an event, when the event can happen. -/
def step (code : K → Act L C S K) (m : State P L C S K) : Event P K → Option (State P L C S K)
  | .go p =>
    match m.status p with
    | .run =>
      match code (m.loc p) with
      | .acquire l k => if m.lock l = none then some ((m.setLock l (some p)).goto p k) else none
      | .release l k => if m.lock l = some p then some ((m.setLock l none).goto p k) else none
      | .access f =>
        some ({ m with shared := (f m.shared).1 }.goto p (f m.shared).2)
      | .interrupted yes no => some (m.goto p (if m.mark p then yes else no))
      | .sleep c none k =>
        if m.lock none = some p then
          some ((m.setLock none none).setStatus p (.asleep c none k))
        else none
      | .sleep c (some l) k =>
        if m.lock none = none then
          some ((m.setLock none (some p)).setStatus p (.drop c l k))
        else none
      | .wakeup c k => if m.lock none = none then some ((m.wake c).goto p k) else none
      | .wakeup1 c k => if m.lock none = some p then some ((m.wake c).goto p k) else none
      | .choose _ => none
    | .drop c l k => some ((m.setLock (some l) none).setStatus p (.fall c l k))
    | .fall c l k => some ((m.setLock none none).setStatus p (.asleep c (some l) k))
    | .asleep _ _ _ => none
    | .awake none k =>
      if m.lock none = none then
        some (((m.setLock none (some p)).setStatus p .run).goto p k)
      else none
    | .awake (some l) k => if m.lock none = none then some (m.setStatus p (.back l k)) else none
    | .back l k =>
      if m.lock (some l) = none then
        some (((m.setLock (some l) (some p)).setStatus p .run).goto p k)
      else none
  | .pick p k =>
    match m.status p, code (m.loc p) with
    | .run, .choose ks => if ks k then some (m.goto p k) else none
    | _, _ => none
  | .mark p =>
    if m.lock none = none then
      some { m with
        mark := update m.mark p true
        status := update m.status p (m.status p).interrupt }
    else none

/-- The steps, with what is known of the state before each. -/
inductive Step (code : K → Act L C S K) (m : State P L C S K) :
    Event P K → State P L C S K → Prop where
  | acquire (p : P) (l : Option L) (k : K) (hs : m.status p = .run)
      (hk : code (m.loc p) = .acquire l k) (hl : m.lock l = none) :
      Step code m (.go p) ((m.setLock l (some p)).goto p k)
  | release (p : P) (l : Option L) (k : K) (hs : m.status p = .run)
      (hk : code (m.loc p) = .release l k) (hl : m.lock l = some p) :
      Step code m (.go p) ((m.setLock l none).goto p k)
  | access (p : P) (f : S → S × K) (hs : m.status p = .run)
      (hk : code (m.loc p) = .access f) :
      Step code m (.go p) ({ m with shared := (f m.shared).1 }.goto p (f m.shared).2)
  | interrupted (p : P) (yes no : K) (hs : m.status p = .run)
      (hk : code (m.loc p) = .interrupted yes no) :
      Step code m (.go p) (m.goto p (if m.mark p then yes else no))
  | sleep (p : P) (c : C) (k : K) (hs : m.status p = .run)
      (hk : code (m.loc p) = .sleep c none k) (hl : m.lock none = some p) :
      Step code m (.go p) ((m.setLock none none).setStatus p (.asleep c none k))
  | take (p : P) (c : C) (l : L) (k : K) (hs : m.status p = .run)
      (hk : code (m.loc p) = .sleep c (some l) k) (hl : m.lock none = none) :
      Step code m (.go p) ((m.setLock none (some p)).setStatus p (.drop c l k))
  | wakeup (p : P) (c : C) (k : K) (hs : m.status p = .run)
      (hk : code (m.loc p) = .wakeup c k ∧ m.lock none = none ∨
        code (m.loc p) = .wakeup1 c k ∧ m.lock none = some p) :
      Step code m (.go p) ((m.wake c).goto p k)
  | drop (p : P) (c : C) (l : L) (k : K) (hs : m.status p = .drop c l k) :
      Step code m (.go p) ((m.setLock (some l) none).setStatus p (.fall c l k))
  | fall (p : P) (c : C) (l : L) (k : K) (hs : m.status p = .fall c l k) :
      Step code m (.go p) ((m.setLock none none).setStatus p (.asleep c (some l) k))
  | leave (p : P) (l : L) (k : K) (hs : m.status p = .awake (some l) k)
      (hl : m.lock none = none) : Step code m (.go p) (m.setStatus p (.back l k))
  | resume (p : P) (l : Option L) (k : K)
      (hs : l = none ∧ m.status p = .awake none k ∨ ∃ l', l = some l' ∧ m.status p = .back l' k)
      (hl : m.lock l = none) :
      Step code m (.go p) (((m.setLock l (some p)).setStatus p .run).goto p k)
  | pick (p : P) (k : K) (ks : K → Bool) (hs : m.status p = .run)
      (hk : code (m.loc p) = .choose ks) (hks : ks k = true) :
      Step code m (.pick p k) (m.goto p k)
  | mark (p : P) (hl : m.lock none = none) : Step code m (.mark p) { m with
        mark := update m.mark p true
        status := update m.status p (m.status p).interrupt }

theorem step_inv {code : K → Act L C S K} {m m' : State P L C S K} {e : Event P K}
    (h : step code m e = some m') : Step code m e m' := by
  cases e with
  | go p =>
    simp only [step] at h
    split at h
    · next hs =>
      split at h
      case h_1 l k hk => split_ifs at h with hl; cases h; exact .acquire p l k hs hk hl
      case h_2 l k hk => split_ifs at h with hl; cases h; exact .release p l k hs hk hl
      case h_3 f hk => cases h; exact .access p f hs hk
      case h_4 yes no hk => cases h; exact .interrupted p yes no hs hk
      case h_5 c k hk => split_ifs at h with hl; cases h; exact .sleep p c k hs hk hl
      case h_6 c l k hk => split_ifs at h with hl; cases h; exact .take p c l k hs hk hl
      case h_7 c k hk =>
        split_ifs at h with hl; cases h; exact .wakeup p c k hs (.inl ⟨hk, hl⟩)
      case h_8 c k hk =>
        split_ifs at h with hl; cases h; exact .wakeup p c k hs (.inr ⟨hk, hl⟩)
      case h_9 => cases h
    · next c l k hs => cases h; exact .drop p c l k hs
    · next c l k hs => cases h; exact .fall p c l k hs
    · cases h
    · next k hs =>
      split_ifs at h with hl; cases h; exact .resume p none k (.inl ⟨rfl, hs⟩) hl
    · next l k hs => split_ifs at h with hl; cases h; exact .leave p l k hs hl
    · next l k hs =>
      split_ifs at h with hl; cases h; exact .resume p (some l) k (.inr ⟨l, rfl, hs⟩) hl
  | pick p k =>
    simp only [step] at h
    split at h <;> [split_ifs at h with hks; skip] <;> cases h
    exact .pick p k _ ‹_› ‹_› hks
  | mark p =>
    simp only [step] at h
    split_ifs at h with hl
    cases h
    exact .mark p hl

/-! ### Locks -/

section Locks

variable (code : K → Act L C S K) (holds : K → Option L → Prop)

/-- The annotation `holds` tells which locks a process holds at a location. -/
def Respects : Prop := ∀ k, match code k with
  | .acquire l k' => ∀ x, holds k' x ↔ x = l ∨ holds k x
  | .release l k' => ∀ x, holds k' x ↔ x ≠ l ∧ holds k x
  | .access f => ∀ s x, holds (f s).2 x ↔ holds k x
  | .interrupted yes no => ∀ x, (holds yes x ↔ holds k x) ∧ (holds no x ↔ holds k x)
  | .sleep _ l k' => holds k l ∧ (l ≠ none → ¬ holds k none) ∧ ∀ x, holds k' x ↔ holds k x
  | .wakeup _ k' => ∀ x, holds k' x ↔ holds k x
  | .wakeup1 _ k' => ∀ x, holds k' x ↔ holds k x
  | .choose ks => ∀ k', ks k' = true → ∀ x, holds k' x ↔ holds k x

/-- The locks held by a process with the given status at the given location. -/
def held : Status L C K → K → Option L → Prop
  | .run, k, x => holds k x
  | .drop _ _ _, k, x => x = none ∨ holds k x
  | .fall _ l _, k, x => x = none ∨ x ≠ some l ∧ holds k x
  | .asleep _ l _, k, x => x ≠ l ∧ holds k x
  | .awake l _, k, x => x ≠ l ∧ holds k x
  | .back l _, k, x => x ≠ some l ∧ holds k x

/-- A process in `sleep` is at a location that calls it. -/
def AtSleep : Status L C K → K → Prop
  | .run, _ => True
  | .drop c l k', k => code k = .sleep c (some l) k'
  | .fall c l k', k => code k = .sleep c (some l) k'
  | .asleep c l k', k => code k = .sleep c l k'
  | .awake l k', k => ∃ c, code k = .sleep c l k'
  | .back l k', k => ∃ c, code k = .sleep c (some l) k'

/-- A lock is held by the process whose location says so, and by no other. -/
structure Owned (m : State P L C S K) : Prop where
  lock_iff : ∀ {p x}, m.lock x = some p ↔ held holds (m.status p) (m.loc p) x
  atSleep : ∀ p, AtSleep code (m.status p) (m.loc p)

end Locks

section Owned

variable {code : K → Act L C S K} {holds : K → Option L → Prop} {m m' : State P L C S K}
  {e : Event P K} {p q : P}

section

variable (h : Owned code holds m)

include h

section

omit [DecidableEq P] [DecidableEq L] [DecidableEq C]

theorem Owned.eq {x : Option L} (hp : held holds (m.status p) (m.loc p) x)
    (hq : held holds (m.status q) (m.loc q) x) :
    p = q :=
  Option.some.inj ((h.lock_iff.mpr hp).symm.trans (h.lock_iff.mpr hq))

/-- A process that goes on after `sleep` is at the location of the call. -/
theorem Owned.code_resume {l : Option L} {k : K}
    (hst : l = none ∧ m.status p = .awake none k ∨ ∃ l', l = some l' ∧ m.status p = .back l' k) :
    ∃ c, code (m.loc p) = .sleep c l k := by
  have hk := h.atSleep p
  rcases hst with ⟨rfl, hst⟩ | ⟨l', rfl, hst⟩ <;> rw [hst] at hk <;> exact hk

/-- No lock changes hands. -/
theorem Owned.same (hlock : m'.lock = m.lock)
    (hheld : ∀ q x, held holds (m'.status q) (m'.loc q) x ↔ held holds (m.status q) (m.loc q) x)
    (hsleep : ∀ q, AtSleep code (m'.status q) (m'.loc q)) : Owned code holds m' where
  lock_iff {p x} := by
    rw [hlock, hheld p x]
    exact h.lock_iff
  atSleep := hsleep

end

omit [DecidableEq C] in
/-- Process `p` takes or releases lock `l`. -/
theorem Owned.change {l : Option L} {o : Option P} (p : P)
    (hlock : m'.lock = update m.lock l o) (hl : m.lock l = none ∨ m.lock l = some p)
    (ho : o = none ∨ o = some p)
    (hother : ∀ q, q ≠ p → m'.status q = m.status q ∧ m'.loc q = m.loc q)
    (hself : ∀ x, held holds (m'.status p) (m'.loc p) x ↔
      if x = l then o = some p else held holds (m.status p) (m.loc p) x)
    (hsleep : AtSleep code (m'.status p) (m'.loc p)) : Owned code holds m' where
  lock_iff {q x} := by
    rw [hlock]
    by_cases hq : q = p
    · subst hq
      rw [hself]
      by_cases hx : x = l
      · subst hx
        simp
      · simpa [hx] using h.lock_iff
    · rw [(hother q hq).1, (hother q hq).2]
      by_cases hx : x = l
      · subst hx
        rw [update_self, ← h.lock_iff]
        rcases ho with rfl | rfl <;> rcases hl with hl | hl <;> simp [hl, Ne.symm hq]
      · rw [update_of_ne hx]
        exact h.lock_iff
  atSleep q := by
    by_cases hq : q = p
    · exact hq ▸ hsleep
    · rw [(hother q hq).1, (hother q hq).2]
      exact h.atSleep q

end

section

omit [DecidableEq L]

theorem held_wake (c : C) (s : Status L C K) (k : K) (x : Option L) :
    held holds (s.wake c) k x ↔ held holds s k x := by
  unfold Status.wake
  split
  · split_ifs <;> rfl
  · rfl

theorem AtSleep.wake (c : C) {s : Status L C K} {k : K} (h : AtSleep code s k) :
    AtSleep code (s.wake c) k := by
  unfold Status.wake
  split
  · split_ifs
    · exact ⟨_, h⟩
    · exact h
  · exact h

end

section

omit [DecidableEq L] [DecidableEq C]

theorem held_interrupt (s : Status L C K) (k : K) (x : Option L) :
    held holds s.interrupt k x ↔ held holds s k x := by
  unfold Status.interrupt
  split <;> rfl

theorem AtSleep.interrupt {s : Status L C K} {k : K} (h : AtSleep code s k) :
    AtSleep code s.interrupt k := by
  unfold Status.interrupt
  split
  · exact ⟨_, h⟩
  · exact h

end

theorem Owned.goto (h : Owned code holds m) (hs : m.status p = .run) {k : K} {s : S}
    (hk : ∀ x, holds k x ↔ holds (m.loc p) x) :
    Owned code holds ({ m with shared := s }.goto p k) := by
  refine h.same rfl (fun q x => ?_) fun q => ?_ <;> by_cases hq : q = p
  · subst hq
    simp [State.goto, hs, held, hk]
  · simp [State.goto, hq]
  · subst hq
    simp [State.goto, hs, AtSleep]
  · simpa [State.goto, hq] using h.atSleep q

theorem Owned.step (hr : Respects code holds) (h : Owned code holds m)
    (hs : step code m e = some m') : Owned code holds m' := by
  have hupdate {α : Type} (f : P → α) (a : α) {q p : P} (hq : q ≠ p) :
      update f p a q = f q := update_of_ne hq _ _
  cases step_inv hs with
  | acquire p l k hst hk hl =>
    have hann := hr (m.loc p)
    rw [hk] at hann
    refine h.change p rfl (.inl hl) (.inr rfl) (fun q hq => ⟨rfl, hupdate _ _ hq⟩)
      (fun x => ?_) ?_
    · simp only [State.goto, State.setLock, update_self, hst, held, hann]
      by_cases hx : x = l <;> simp [hx]
    · simp [State.goto, State.setLock, hst, AtSleep]
  | release p l k hst hk hl =>
    have hann := hr (m.loc p)
    rw [hk] at hann
    refine h.change p rfl (.inr hl) (.inl rfl) (fun q hq => ⟨rfl, hupdate _ _ hq⟩)
      (fun x => ?_) ?_
    · simp only [State.goto, State.setLock, update_self, hst, held, hann]
      by_cases hx : x = l <;> simp [hx]
    · simp [State.goto, State.setLock, hst, AtSleep]
  | access p f hst hk =>
    have hann := hr (m.loc p)
    rw [hk] at hann
    exact h.goto hst (hann m.shared)
  | interrupted p yes no hst hk =>
    have hann := hr (m.loc p)
    rw [hk] at hann
    refine h.goto hst fun x => ?_
    split_ifs
    · exact (hann x).1
    · exact (hann x).2
  | sleep p c k hst hk hl =>
    refine h.change p rfl (.inr hl) (.inl rfl) (fun q hq => ⟨hupdate _ _ hq, rfl⟩)
      (fun x => ?_) ?_
    · simp only [State.setStatus, State.setLock, update_self, hst, held]
      by_cases hx : x = none <;> simp [hx]
    · simpa [State.setStatus, State.setLock, AtSleep] using hk
  | take p c l k hst hk hl =>
    refine h.change p rfl (.inl hl) (.inr rfl) (fun q hq => ⟨hupdate _ _ hq, rfl⟩)
      (fun x => ?_) ?_
    · simp only [State.setStatus, State.setLock, update_self, hst, held]
      by_cases hx : x = none <;> simp [hx]
    · simpa [State.setStatus, State.setLock, AtSleep] using hk
  | wakeup p c k hst hk =>
    have hann : ∀ x, holds k x ↔ holds (m.loc p) x := by
      have hann := hr (m.loc p)
      rcases hk with ⟨hk, -⟩ | ⟨hk, -⟩ <;> rw [hk] at hann <;> exact hann
    have hwake : Owned code holds (m.wake c) :=
      h.same rfl (fun q x => held_wake c _ _ x) fun q => (h.atSleep q).wake c
    exact hwake.goto (by simp [State.wake, hst, Status.wake]) hann
  | drop p c l k hst =>
    have hk := h.atSleep p
    rw [hst] at hk
    have hann := hr (m.loc p)
    rw [show code (m.loc p) = .sleep c (some l) k from hk] at hann
    refine h.change p rfl (.inr (h.lock_iff.mpr (by rw [hst]; exact .inr hann.1))) (.inl rfl)
      (fun q hq => ⟨hupdate _ _ hq, rfl⟩) (fun x => ?_) ?_
    · simp only [State.setStatus, State.setLock, update_self, hst, held]
      by_cases hx : x = some l <;> simp [hx]
    · simpa [State.setStatus, State.setLock, AtSleep] using hk
  | fall p c l k hst =>
    have hk := h.atSleep p
    rw [hst] at hk
    have hann := hr (m.loc p)
    rw [show code (m.loc p) = .sleep c (some l) k from hk] at hann
    refine h.change p rfl (.inr (h.lock_iff.mpr (by rw [hst]; exact .inl rfl))) (.inl rfl)
      (fun q hq => ⟨hupdate _ _ hq, rfl⟩) (fun x => ?_) ?_
    · simp only [State.setStatus, State.setLock, update_self, hst, held]
      by_cases hx : x = none
      · simpa [hx] using hann.2.1 (by simp)
      · simp [hx]
    · simpa [State.setStatus, State.setLock, AtSleep] using hk
  | leave p l k hst hl =>
    have hk := h.atSleep p
    rw [hst] at hk
    refine h.same rfl (fun q x => ?_) fun q => ?_ <;> by_cases hq : q = p
    · subst hq
      simp [State.setStatus, hst, held]
    · simp [State.setStatus, hq]
    · subst hq
      simpa [State.setStatus, AtSleep] using hk
    · simpa [State.setStatus, hq] using h.atSleep q
  | resume p l k hst hl =>
    obtain ⟨c, hk⟩ := h.code_resume hst
    have hann := hr (m.loc p)
    rw [hk] at hann
    refine h.change p rfl (.inl hl) (.inr rfl)
      (fun q hq => ⟨hupdate _ _ hq, hupdate _ _ hq⟩) (fun x => ?_) ?_
    · simp only [State.goto, State.setStatus, State.setLock, update_self, held, hann.2.2]
      rcases hst with ⟨rfl, hst⟩ | ⟨l', rfl, hst⟩
      · by_cases hx : x = none <;> simp [hx, hst, hann.1]
      · by_cases hx : x = some l' <;> simp [hx, hst, hann.1]
    · simp [State.goto, State.setStatus, State.setLock, AtSleep]
  | pick p k ks hst hk hks =>
    have hann := hr (m.loc p)
    rw [hk] at hann
    exact h.goto hst (hann k hks)
  | mark p hl =>
    refine h.same rfl (fun q x => ?_) fun q => ?_ <;> by_cases hq : q = p
    · subst hq
      simp [held_interrupt]
    · simp [hq]
    · subst hq
      simpa using (h.atSleep q).interrupt
    · simpa [hq] using h.atSleep q

omit [DecidableEq P] [DecidableEq L] [DecidableEq C] in
/-- Nobody holds a lock at the start. -/
theorem Owned.init (hlock : ∀ x, m.lock x = none) (hstatus : ∀ p, m.status p = .run)
    (hloc : ∀ p x, ¬ holds (m.loc p) x) : Owned code holds m where
  lock_iff {p x} := by simp [hlock, hstatus, held, hloc]
  atSleep p := by simp [hstatus, AtSleep]

end Owned

/-- Where the processes go on after an event, and what they share then. A process in `sleep` is
still at the location that calls it. -/
inductive Moved (code : K → Act L C S K) (m : State P L C S K) :
    Event P K → S → (P → K) → Prop where
  | access (p : P) (f : S → S × K) (hk : code (m.loc p) = .access f) :
      Moved code m (.go p) (f m.shared).1 (update m.loc p (f m.shared).2)
  | leads (p : P) (k : K)
      (hk : (code (m.loc p)).Leads m.shared (m.mark p) k ∨ ∃ c l, code (m.loc p) = .sleep c l k)
      (hna : ∀ f, code (m.loc p) ≠ .access f) : Moved code m (.go p) m.shared (update m.loc p k)
  | pick (p : P) (k : K) (ks : K → Bool) (hk : code (m.loc p) = .choose ks) (hks : ks k = true) :
      Moved code m (.pick p k) m.shared (update m.loc p k)
  | inside (p : P) (c : C) (l : Option L) (k : K) (hk : code (m.loc p) = .sleep c l k) :
      Moved code m (.go p) m.shared m.loc
  | mark (p : P) : Moved code m (.mark p) m.shared m.loc

theorem moved_of_step {code : K → Act L C S K} {holds : K → Option L → Prop}
    {m m' : State P L C S K} {e : Event P K} (h : Owned code holds m)
    (hs : step code m e = some m') : Moved code m e m'.shared m'.loc := by
  cases step_inv hs with
  | access p f hst hk => exact .access p f hk
  | acquire p l k hst hk hl | release p l k hst hk hl =>
    exact .leads p k (.inl (by rw [hk]; rfl)) (by simp [hk])
  | interrupted p yes no hst hk =>
    exact .leads p _ (.inl (by rw [hk]; rfl)) (by simp [hk])
  | wakeup p c k hst hk =>
    rcases hk with ⟨hk, -⟩ | ⟨hk, -⟩ <;>
      exact .leads p k (.inl (by rw [hk]; rfl)) (by simp [hk])
  | pick p k ks hst hk hks => exact .pick p k ks hk hks
  | sleep p c k hst hk hl | take p c l k hst hk hl => exact .inside p _ _ _ hk
  | drop p c l k hst | fall p c l k hst =>
    have hk := h.atSleep p
    rw [hst] at hk
    exact .inside p _ _ _ hk
  | leave p l k hst hl =>
    have hk := h.atSleep p
    rw [hst] at hk
    obtain ⟨c, hk⟩ := hk
    exact .inside p _ _ _ hk
  | resume p l k hst hl =>
    obtain ⟨c, hk⟩ := h.code_resume hst
    exact .leads p k (.inr ⟨c, l, hk⟩) (by simp [hk])
  | mark p hl => exact .mark p

section Assertions

variable {code : K → Act L C S K} {holds : K → Option L → Prop} {m m' : State P L C S K}
  {e : Event P K} {A : K → S → Prop}

/-- What every access of the shared state keeps is kept by every step. -/
theorem shared_step {I : S → Prop} (hI : ∀ k f s, code k = .access f → I s → I (f s).1)
    (h : I m.shared) (hs : step code m e = some m') : I m'.shared := by
  cases step_inv hs with
  | access p f hst hk => exact hI _ f _ hk h
  | _ => exact h

/-- The processes that are not in `sleep` satisfy the assertions at their locations. -/
def Asserted (A : K → S → Prop) (m : State P L C S K) : Prop :=
  ∀ p, m.status p = .run → A (m.loc p) m.shared

/-- The code leads from assertion to assertion, and an access does not interfere with the assertion
at a location that may be occupied at the same time. -/
structure Asserts (code : K → Act L C S K) (holds : K → Option L → Prop) (A : K → S → Prop) :
    Prop where
  next : ∀ k s, A k s → match code k with
    | .acquire _ k' | .release _ k' | .wakeup _ k' | .wakeup1 _ k' => A k' s
    | .access f => A (f s).2 (f s).1
    | .interrupted yes no => A yes s ∧ A no s
    | .sleep _ _ _ => True
    | .choose ks => ∀ k', ks k' = true → A k' s
  wake : ∀ k c l k', code k = .sleep c l k' → ∀ s, A k' s
  free : ∀ k f k' s, code k = .access f → A k s → A k' s → (∀ x, holds k x → ¬ holds k' x) →
    A k' (f s).1

section

omit [DecidableEq L] [DecidableEq C]

/-- Process `p` goes on at another location, where its assertion holds. -/
theorem Asserted.goto (h : Asserted A m) {p : P} {k : K} (hm : m'.shared = m.shared)
    (hloc : m'.loc = update m.loc p k)
    (hstatus : ∀ q, q ≠ p → m'.status q = .run → m.status q = .run) (hk : A k m.shared) :
    Asserted A m' := by
  intro q hq
  rw [hm, hloc]
  by_cases hqp : q = p
  · subst hqp
    rwa [update_self]
  · rw [update_of_ne hqp]
    exact h q (hstatus q hqp hq)

/-- Process `p` enters `sleep` or is inside. -/
theorem Asserted.leave (h : Asserted A m) {p : P} {s : Status L C K} (hs : s ≠ .run)
    (hm : m'.shared = m.shared) (hloc : m'.loc = m.loc)
    (hstatus : m'.status = update m.status p s) : Asserted A m' := by
  intro q hq
  rw [hstatus] at hq
  by_cases hqp : q = p
  · subst hqp
    rw [update_self] at hq
    exact absurd hq hs
  · rw [update_of_ne hqp] at hq
    rw [hm, hloc]
    exact h q hq

end

omit [DecidableEq L] in
theorem Status.run_of_wake {c : C} {s : Status L C K} (h : s.wake c = .run) : s = .run := by
  cases s with
  | asleep c' l k =>
    simp only [Status.wake] at h
    split_ifs at h
  | _ => exact h

omit [DecidableEq L] [DecidableEq C] in
theorem Status.run_of_interrupt {s : Status L C K} (h : s.interrupt = .run) : s = .run := by
  cases s with
  | asleep c' l k => cases h
  | _ => exact h

/-- **Assertions without interference.** -/
theorem Asserted.step (hA : Asserts code holds A) (hown : Owned code holds m) (h : Asserted A m)
    (hs : step code m e = some m') : Asserted A m' := by
  cases step_inv hs with
  | acquire p l k hst hk hl | release p l k hst hk hl =>
    have hnext := hA.next _ _ (h p hst)
    rw [hk] at hnext
    exact h.goto rfl rfl (fun _ _ => id) hnext
  | access p f hst hk =>
    have hnext := hA.next _ _ (h p hst)
    rw [hk] at hnext
    intro q hq
    by_cases hqp : q = p
    · subst hqp
      simpa using hnext
    · rw [State.goto_loc_of_ne _ _ _ hqp]
      refine hA.free _ f _ _ hk (h p hst) (h q hq) fun x hx hx' => hqp (hown.eq (x := x) ?_ ?_)
      · rw [show m.status q = .run from hq]
        exact hx'
      · rw [hst]
        exact hx
  | interrupted p yes no hst hk =>
    have hnext := hA.next _ _ (h p hst)
    rw [hk] at hnext
    refine h.goto rfl rfl (fun _ _ => id) ?_
    split_ifs
    · exact hnext.1
    · exact hnext.2
  | sleep p c k hst hk hl | take p c l k hst hk hl => exact h.leave (by simp) rfl rfl rfl
  | wakeup p c k hst hk =>
    have hnext : A k m.shared := by
      have hnext := hA.next _ _ (h p hst)
      rcases hk with ⟨hk, -⟩ | ⟨hk, -⟩ <;> rw [hk] at hnext <;> exact hnext
    exact h.goto rfl rfl (fun q _ => Status.run_of_wake) hnext
  | drop p c l k hst | fall p c l k hst | leave p l k hst hl => exact h.leave (by simp) rfl rfl rfl
  | resume p l k hst hl =>
    obtain ⟨c, hk⟩ := hown.code_resume hst
    refine h.goto rfl rfl (fun q hq hrun => ?_) (hA.wake _ _ _ _ hk _)
    rwa [State.goto_status, State.setStatus_status_of_ne _ _ _ hq] at hrun
  | pick p k ks hst hk hks =>
    have hnext := hA.next _ _ (h p hst)
    rw [hk] at hnext
    exact h.goto rfl rfl (fun _ _ => id) (hnext k hks)
  | mark p hl =>
    intro q hq
    by_cases hqp : q = p
    · subst hqp
      simp only [update_self] at hq
      exact h q (Status.run_of_interrupt hq)
    · simp only [update_of_ne hqp] at hq
      exact h q hq

end Assertions

/-! ### No lost wakeup -/

/-- The process sleeps on `c` or can no longer be stopped from doing so. -/
def Status.On (c : C) : Status L C K → Prop
  | .drop c' _ _ | .fall c' _ _ | .asleep c' _ _ => c' = c
  | _ => False

/-- Nobody sleeps on `c` while `ready` holds, unless some process is at a location that owes a
wakeup. -/
def Covered (c : C) (ready : S → Prop) (owes : K → Prop) (m : State P L C S K) : Prop :=
  ∀ q, (m.status q).On c → ready m.shared → ∃ r, m.status r = .run ∧ owes (m.loc r)

section Covered

variable {code : K → Act L C S K} {holds : K → Option L → Prop} {m m' : State P L C S K}
  {e : Event P K} {p q : P} {c : C} {ready : S → Prop} {owes : K → Prop}

omit [DecidableEq L] in
theorem Status.On.of_wake {c' : C} {s : Status L C K} (h : (s.wake c').On c) : s.On c := by
  unfold Status.wake at h
  split at h
  · split_ifs at h
    · exact h.elim
    · exact h
  · exact h

omit [DecidableEq L] [DecidableEq C] in
theorem Status.On.of_interrupt {s : Status L C K} (h : s.interrupt.On c) : s.On c := by
  unfold Status.interrupt at h
  split at h
  · exact h.elim
  · exact h

omit [DecidableEq P] [DecidableEq L] [DecidableEq C] in
/-- A process on its way to sleep holds the lock of the sleepers. -/
theorem Owned.lock_of_on (h : Owned code holds m) (hq : (m.status q).On c) :
    m.lock none = some q ∨ ∃ l k, m.status q = .asleep c l k := by
  cases hst : m.status q with
  | run => simp [hst, Status.On] at hq
  | drop c' l k | fall c' l k => exact .inl (h.lock_iff.mpr (by rw [hst]; exact .inl rfl))
  | asleep c' l k =>
    rw [hst] at hq
    obtain rfl : c' = c := hq
    exact .inr ⟨l, k, rfl⟩
  | awake l k | back l k => simp [hst, Status.On] at hq

/-- The wakeup of `c` leaves nobody on `c`. -/
theorem Owned.not_on_wake (h : Owned code holds m) (hp : m.status p = .run)
    (hl : m.lock none = none ∨ m.lock none = some p) (q : P) : ¬ ((m.status q).wake c).On c := by
  intro hq
  rcases h.lock_of_on hq.of_wake with hlock | ⟨l, k, hst⟩
  · rcases hl with hl | hl
    · simp [hl] at hlock
    · obtain rfl : p = q := Option.some.inj (hl.symm.trans hlock)
      simp [hp, Status.wake, Status.On] at hq
  · simp [hst, Status.wake, Status.On] at hq

section

omit [DecidableEq L] [DecidableEq C]

/-- A step of `p` that keeps its status `run` and wakes nobody on `c` keeps the channel covered if
it owes a wakeup whenever it should. -/
theorem Covered.goto (h : Covered c ready owes m) (hp : m.status p = .run)
    (hon : ∀ q, (m'.status q).On c → (m.status q).On c)
    (hrun : ∀ r, m.status r = .run → m'.status r = .run)
    (hloc : ∀ r, r ≠ p → m'.loc r = m.loc r)
    (hready : ready m'.shared → ¬ ready m.shared → owes (m'.loc p))
    (hkeep : owes (m.loc p) → ready m'.shared → (∃ q, (m.status q).On c) → owes (m'.loc p)) :
    Covered c ready owes m' := by
  intro q hq hr
  have hnew (hk : owes (m'.loc p)) : ∃ r, m'.status r = .run ∧ owes (m'.loc r) :=
    ⟨p, hrun p hp, hk⟩
  by_cases hr' : ready m.shared
  · obtain ⟨r, hr₁, hr₂⟩ := h q (hon q hq) hr'
    by_cases hrp : r = p
    · exact hnew (hkeep (hrp ▸ hr₂) hr ⟨q, hon q hq⟩)
    · exact ⟨r, hrun r hr₁, by rwa [hloc r hrp]⟩
  · exact hnew (hready hr hr')

/-- A step of `p` inside `sleep`, or into it, keeps the channel covered if the condition it sleeps
for is false and it owes no wakeup. -/
theorem Covered.enter (h : Covered c ready owes m) {s : Status L C K}
    (hshared : m'.shared = m.shared) (hloc : m'.loc = m.loc)
    (hstatus : m'.status = update m.status p s)
    (hself : s.On c → (m.status p).On c ∨ ¬ ready m.shared)
    (howes : m.status p = .run → ¬ owes (m.loc p)) : Covered c ready owes m' := by
  intro q hq hr
  rw [hshared] at hr
  have hold (hq : (m.status q).On c) : ∃ r, m'.status r = .run ∧ owes (m'.loc r) := by
    obtain ⟨r, hr₁, hr₂⟩ := h q hq hr
    have hrp : r ≠ p := by
      rintro rfl
      exact howes hr₁ hr₂
    exact ⟨r, by rwa [hstatus, update_of_ne hrp], by rwa [hloc]⟩
  by_cases hqp : q = p
  · subst hqp
    rw [hstatus, update_self] at hq
    exact hold ((hself hq).resolve_right fun hn => hn hr)
  · rw [hstatus, update_of_ne hqp] at hq
    exact hold hq

end

/-- **No lost wakeup.** A step keeps the channel covered under these conditions on the code: a
process calls `sleep` on the channel only when the condition is false, who makes the condition
true owes a wakeup afterwards, and who owes one goes on owing it until it makes the wakeup, unless
nobody sleeps on the channel. -/
theorem Covered.step (hown : Owned code holds m) (h : Covered c ready owes m)
    (hs : step code m e = some m')
    (hidle : ∀ k ks, code k = .choose ks → ¬ owes k)
    (hnap : ∀ k c' l k', code k = .sleep c' l k' → ¬ owes k)
    (hsleep : ∀ p l k, m.status p = .run → code (m.loc p) = .sleep c l k → ¬ ready m.shared)
    (hready : ∀ p f, m.status p = .run → code (m.loc p) = .access f → ready (f m.shared).1 →
      ¬ ready m.shared → owes (f m.shared).2)
    (hkeep : ∀ p k, e = .go p → m.status p = .run → owes (m.loc p) →
      (code (m.loc p)).Leads m.shared (m.mark p) k → (∃ q, (m.status q).On c) →
      (∀ k, code (m.loc p) ≠ .wakeup c k) → (∀ k, code (m.loc p) ≠ .wakeup1 c k) →
      ready m'.shared → owes k) : Covered c ready owes m' := by
  have hgo {p : P} {k : K} (hst : m.status p = .run) (hstatus : m'.status = m.status)
      (hloc : m'.loc = update m.loc p k) (hready : ready m'.shared → ¬ ready m.shared → owes k)
      (hkeep : owes (m.loc p) → (∃ q, (m.status q).On c) → ready m'.shared → owes k) :
      Covered c ready owes m' := by
    refine h.goto hst (fun q => hstatus ▸ id) (fun r => hstatus ▸ id)
      (fun r hr => by rw [hloc, update_of_ne hr]) ?_ ?_ <;> rw [hloc, update_self]
    · exact hready
    · exact fun h₁ h₂ h₃ => hkeep h₁ h₃ h₂
  cases step_inv hs with
  | acquire p l k hst hk hl | release p l k hst hk hl =>
    exact hgo hst rfl rfl (fun h₁ h₂ => absurd h₁ h₂) (hkeep p k rfl hst · (by rw [hk]; rfl) ·
      (by simp [hk]) (by simp [hk]))
  | access p f hst hk =>
    exact hgo hst rfl rfl (hready p f hst hk) (hkeep p _ rfl hst · (by rw [hk]; rfl) ·
      (by simp [hk]) (by simp [hk]))
  | interrupted p yes no hst hk =>
    exact hgo hst rfl rfl (fun h₁ h₂ => absurd h₁ h₂) (hkeep p _ rfl hst · (by rw [hk]; rfl) ·
      (by simp [hk]) (by simp [hk]))
  | sleep p c' k hst hk hl | take p c' l k hst hk hl =>
    refine h.enter rfl rfl rfl (fun hc => .inr ?_) fun _ => hnap _ _ _ _ hk
    obtain rfl : c' = c := hc
    exact hsleep p _ _ hst hk
  | wakeup p c' k hst hk =>
    by_cases hc : c' = c
    · subst hc
      intro q hq
      exact absurd hq (hown.not_on_wake hst (hk.imp And.right And.right) q)
    · refine h.goto hst (fun q hq => hq.of_wake) (fun r hr => ?_)
        (fun r => State.goto_loc_of_ne _ _ _) (fun h₁ h₂ => absurd h₁ h₂) fun h₁ h₂ h₃ =>
          hkeep p _ rfl hst h₁ ?_ h₃ ?_ ?_ h₂
      · simp [hr]
      · rcases hk with ⟨hk, -⟩ | ⟨hk, -⟩ <;> rw [hk] <;> exact State.goto_loc_self _ _ _
      · rcases hk with ⟨hk, -⟩ | ⟨hk, -⟩ <;> simp [hk, hc]
      · rcases hk with ⟨hk, -⟩ | ⟨hk, -⟩ <;> simp [hk, hc]
  | drop p c' l k hst | fall p c' l k hst =>
    refine h.enter rfl rfl rfl (fun hc => .inl ?_) (by simp [hst])
    rw [hst]
    exact hc
  | leave p l k hst hl => exact h.enter rfl rfl rfl nofun (by simp [hst])
  | resume p l k hst hl =>
    have hne : m.status p ≠ .run := by rcases hst with ⟨-, hst⟩ | ⟨l', -, hst⟩ <;> simp [hst]
    intro q hq hr
    have hqp : q ≠ p := by
      rintro rfl
      simp [Status.On] at hq
    rw [State.goto_status, State.setStatus_status_of_ne _ _ _ hqp] at hq
    obtain ⟨r, hr₁, hr₂⟩ := h q hq hr
    have hrp : r ≠ p := fun hrp => hne (hrp ▸ hr₁)
    refine ⟨r, ?_, ?_⟩
    · rwa [State.goto_status, State.setStatus_status_of_ne _ _ _ hrp]
    · rwa [State.goto_loc_of_ne _ _ _ hrp]
  | pick p k ks hst hk hks =>
    exact hgo hst rfl rfl (fun h₁ h₂ => absurd h₁ h₂) fun h₁ => absurd h₁ (hidle _ _ hk)
  | mark p hl =>
    intro q hq hr
    have hq' : (m.status q).On c := by
      by_cases hqp : q = p
      · subst hqp
        simp only [update_self] at hq
        exact hq.of_interrupt
      · simpa only [update_of_ne hqp] using hq
    obtain ⟨r, hr₁, hr₂⟩ := h q hq' hr
    refine ⟨r, ?_, hr₂⟩
    by_cases hrp : r = p
    · subst hrp
      simp [hr₁, Status.interrupt]
    · simpa only [update_of_ne hrp] using hr₁

end Covered

/-! ### No lost interrupt -/

/-- The process has been woken up and has not left `sleep` yet. -/
def Status.woken : Status L C K → Bool
  | .awake _ _ | .back _ _ => true
  | _ => false

/-- At the locations of `window`, and asleep there, a process has not been interrupted. -/
def Unmarked (window : K → Prop) (m : State P L C S K) : Prop :=
  ∀ p, window (m.loc p) → (m.status p).woken = false → m.mark p = false

/-- The code enters the window only by a test that finds the process not interrupted, and leaves it
when it returns from `sleep`. -/
def Enters (code : K → Act L C S K) (window : K → Prop) : Prop := ∀ k, match code k with
  | .acquire _ k' | .release _ k' | .wakeup _ k' | .wakeup1 _ k' => window k' → window k
  | .access f => ∀ s, window (f s).2 → window k
  | .interrupted yes _ => window yes → window k
  | .sleep _ _ k' => ¬ window k'
  | .choose ks => ∀ k', ks k' = true → window k' → window k

section Unmarked

variable {code : K → Act L C S K} {holds : K → Option L → Prop} {m m' : State P L C S K}
  {e : Event P K} {p : P} {window : K → Prop}

omit [DecidableEq L] [DecidableEq C] in
/-- Process `p` goes on at `k`, without having been interrupted if `k` is in the window. -/
theorem Unmarked.goto (h : Unmarked window m) (hmark : m'.mark = m.mark)
    (hloc : ∀ q, q ≠ p → m'.loc q = m.loc q)
    (hstatus : ∀ q, q ≠ p → (m'.status q).woken = false → (m.status q).woken = false)
    (hself : window (m'.loc p) → (m'.status p).woken = false → m.mark p = false) :
    Unmarked window m' := by
  intro q hq hst
  rw [hmark]
  by_cases hqp : q = p
  · subst hqp
    exact hself hq hst
  · exact h q (hloc q hqp ▸ hq) (hstatus q hqp hst)

omit [DecidableEq L] in
theorem Status.woken_of_wake {c : C} {s : Status L C K} (h : (s.wake c).woken = false) :
    s.woken = false := by
  cases s with
  | asleep c' l k => rfl
  | _ => exact h

/-- **No lost interrupt.** A step keeps the processes in the window unmarked, if no process is
marked while it runs at a location of the window. -/
theorem Unmarked.step (hown : Owned code holds m) (h : Unmarked window m)
    (hs : step code m e = some m') (hent : Enters code window)
    (hmark : ∀ p, e = .mark p → m.status p = .run → ¬ window (m.loc p)) : Unmarked window m' := by
  -- a process that runs goes on in the window only if it was there
  have hgo {p : P} {k : K} (hst : m.status p = .run) (hm : m'.mark = m.mark)
      (hloc : m'.loc = update m.loc p k)
      (hstatus : ∀ q, q ≠ p → (m'.status q).woken = false → (m.status q).woken = false)
      (hin : window k → window (m.loc p)) : Unmarked window m' := by
    refine h.goto hm (fun q hq => by rw [hloc, update_of_ne hq]) hstatus fun hw _ => ?_
    rw [hloc, update_self] at hw
    exact h p (hin hw) (by rw [hst]; rfl)
  -- a process in `sleep` stays where it is
  have hnap {p : P} {s : Status L C K} (hm : m'.mark = m.mark) (hloc : m'.loc = m.loc)
      (hstatus : m'.status = update m.status p s)
      (hself : s.woken = false → (m.status p).woken = false) : Unmarked window m' := by
    refine h.goto (p := p) hm (fun q _ => by rw [hloc]) (fun q hq => ?_) fun hw hs => ?_
    · rw [hstatus, update_of_ne hq]
      exact id
    · rw [hstatus, update_self] at hs
      exact h p (hloc ▸ hw) (hself hs)
  cases step_inv hs with
  | acquire p l k hst hk hl | release p l k hst hk hl =>
    have hin := hent (m.loc p)
    rw [hk] at hin
    exact hgo hst rfl rfl (fun _ _ => id) hin
  | access p f hst hk =>
    have hin := hent (m.loc p)
    rw [hk] at hin
    exact hgo hst rfl rfl (fun _ _ => id) (hin _)
  | interrupted p yes no hst hk =>
    have hin := hent (m.loc p)
    rw [hk] at hin
    refine h.goto rfl (fun q => State.goto_loc_of_ne _ _ _) (fun _ _ => id) fun hw _ => ?_
    rw [State.goto_loc_self] at hw
    by_cases hm : m.mark p = true
    · rw [if_pos hm] at hw
      exact h p (hin hw) (by rw [hst]; rfl)
    · simpa using hm
  | sleep p c k hst hk hl | take p c l k hst hk hl =>
    exact hnap rfl rfl rfl fun _ => by rw [hst]; rfl
  | wakeup p c k hst hk =>
    have hin := hent (m.loc p)
    refine hgo hst rfl rfl (fun q _ => Status.woken_of_wake) ?_
    rcases hk with ⟨hk, -⟩ | ⟨hk, -⟩ <;> rw [hk] at hin <;> exact hin
  | drop p c l k hst | fall p c l k hst => exact hnap rfl rfl rfl fun _ => by rw [hst]; rfl
  | leave p l k hst hl => exact hnap rfl rfl rfl (by simp [Status.woken])
  | resume p l k hst hl =>
    obtain ⟨c, hk⟩ := hown.code_resume hst
    have hin := hent (m.loc p)
    rw [hk] at hin
    exact h.goto rfl (fun q => State.goto_loc_of_ne _ _ _)
      (fun q hq => by rw [State.goto_status, State.setStatus_status_of_ne _ _ _ hq]; exact id)
      fun hw _ => absurd (by simpa using hw) hin
  | pick p k ks hst hk hks =>
    have hin := hent (m.loc p)
    rw [hk] at hin
    exact hgo hst rfl rfl (fun _ _ => id) (hin k hks)
  | mark p hl =>
    intro q hq hst
    by_cases hqp : q = p
    · -- a process that is marked does not run in the window, and cannot be on its way to sleep
      subst hqp
      simp only [update_self] at hst
      cases hs' : m.status q with
      | run => exact absurd hq (hmark q rfl hs')
      | drop c l k | fall c l k =>
        have := hown.lock_iff.mpr (by rw [hs']; exact .inl rfl)
        simp [hl] at this
      | asleep c l k | awake l k | back l k => simp [hs', Status.interrupt, Status.woken] at hst
    · simp only [update_of_ne hqp] at hst ⊢
      exact h q hq hst

end Unmarked

end Dave.Monitor
