import Dave.Sync.Wakeup

/-!
# Sleep locks

Elsewhere a sleep lock is taken and given back in one step and belongs to a process in between. Here
is the code of `acquiresleep` and `releasesleep`, which take a spin lock, sleep and wake up.
-/

namespace Dave.Sync

open Monitor

/-- `struct sleeplock`, guarded by its spin lock. -/
structure Sleeplock where
  locked : Bool
  pid : ℕ

namespace Sleeplock

/-- What `acquiresleep` waits for. -/
def free (lk : Sleeplock) : Bool := !lk.locked

def holdingsleep (lk : Sleeplock) (pid : ℕ) : Bool := lk.locked && lk.pid == pid

/-- `acquiresleep` by the process with the given pid. -/
def acquiresleep (pid : ℕ) : Loc free := .consumerAcquire fun _ => ⟨true, pid⟩

/-- `releasesleep`, which makes the wakeup with the spin lock held. -/
def releasesleep : Loc free := .producerAcquire (fun _ => ⟨false, 0⟩) (fun _ => rfl) false

abbrev Users (P : Type) : Type := State P Unit Unit Sleeplock (Loc free)

/-- A process calls one of the two functions, makes the next step in it, or is killed. -/
inductive Use (P : Type) where
  | acquiresleep (p : P)
  | releasesleep (p : P)
  | go (p : P)
  | kill (p : P)

variable {P : Type} {pid : P → ℕ} {m m' : Users P} {p : P} {k : Loc free}

def Use.event (pid : P → ℕ) : Use P → Event P (Loc free)
  | .acquiresleep p => .pick p (Sleeplock.acquiresleep (pid p))
  | .releasesleep p => .pick p Sleeplock.releasesleep
  | .go p => .go p
  | .kill p => .mark p

/-- A process releases the lock only if it holds it, which `brelse` and `iunlock` test before. -/
def Tests (pid : P → ℕ) (m : Users P) : Use P → Prop
  | .releasesleep p => m.shared.holdingsleep (pid p) = true
  | _ => True

instance (m : Users P) (u : Use P) : Decidable (Tests pid m u) := by
  cases u <;> unfold Tests <;> infer_instance

/-- What holds of the lock when a process with the given pid is at a location. -/
def Belongs (lk : Sleeplock) (pid : ℕ) : Loc free → Prop
  | .consumerAcquire f | .consumerTest f | .consumerSleep f | .consume f =>
    f = fun _ => ⟨true, pid⟩
  | .consumerRelease => lk.holdingsleep pid = true
  | .producerAcquire g _ _ | .produce g _ _ =>
    (g = fun _ => ⟨false, 0⟩) ∧ lk.holdingsleep pid = true
  | _ => True

theorem Belongs.of_not {lk lk' : Sleeplock} {n : ℕ} (h : Belongs lk n k)
    (hn : lk.holdingsleep n ≠ true) : Belongs lk' n k := by
  cases k with
  | consumerRelease => exact absurd h hn
  | producerAcquire g hg late | produce g hg late => exact absurd h.2 hn
  | _ => exact h

/-- The invariant of the processes that use a lock. -/
structure Owned (pid : P → ℕ) (m : Users P) : Prop where
  inv : Inv (some ()) m
  belongs : ∀ q, Belongs m.shared (pid q) (m.loc q)

/-- The lock changes hands only when the process that has it gives it back. -/
theorem Owned.access (h : Owned pid m) (hpid : Function.Injective pid)
    {f : Sleeplock → Sleeplock × Loc free} (hst : m.status p = .run)
    (hk : code free (some ()) (m.loc p) = .access f) :
    Belongs (f m.shared).1 (pid p) (f m.shared).2 ∧
      ((f m.shared).1 = m.shared ∨ ∀ q, q ≠ p → m.shared.holdingsleep (pid q) ≠ true) := by
  have hp := h.belongs p
  have ha := h.inv.asserted p hst
  cases hloc : m.loc p <;> rw [hloc] at hk hp ha <;> cases hk
  case consumerTest f =>
    refine ⟨?_, .inl rfl⟩
    dsimp only
    split_ifs <;> exact hp
  case consume f =>
    have hfree : m.shared.locked = false := by simpa [Tested, free] using ha
    obtain rfl : f = fun _ => ⟨true, pid p⟩ := hp
    exact ⟨by simp [Belongs, holdingsleep], .inr fun q _ => by simp [holdingsleep, hfree]⟩
  case produce g hg late =>
    refine ⟨by cases late <;> trivial, .inr fun q hq hheld => hq (hpid ?_)⟩
    have hmine := hp.2
    simp only [holdingsleep, Bool.and_eq_true, beq_iff_eq] at hheld hmine
    exact hheld.2.symm.trans hmine.2

variable [DecidableEq P]

def use (pid : P → ℕ) (m : Users P) (u : Use P) : Option (Users P) :=
  step (code free (some ())) m (u.event pid)

theorem belongs_goto {lk : Sleeplock} (h : ∀ q, q ≠ p → Belongs lk (pid q) (m.loc q))
    (hk : Belongs lk (pid p) k) (q : P) : Belongs lk (pid q) ((m.goto p k).loc q) := by
  by_cases hq : q = p
  · subst hq
    rwa [State.goto_loc_self]
  · rw [State.goto_loc_of_ne _ _ _ hq]
    exact h q hq

theorem Owned.use (h : Owned pid m) (hpid : Function.Injective pid) {u : Use P}
    (hu : Tests pid m u) (hs : use pid m u = some m') : Owned pid m' := by
  refine ⟨h.inv.step hs, fun q => ?_⟩
  have hall {p : P} (q : P) (_ : q ≠ p) := h.belongs q
  cases u with
  | acquiresleep p =>
    cases step_inv hs
    refine belongs_goto hall ?_ q
    rfl
  | releasesleep p =>
    cases step_inv hs
    refine belongs_goto hall ?_ q
    exact ⟨rfl, hu⟩
  | kill p =>
    cases step_inv hs
    exact h.belongs q
  | go p =>
    have hp := h.belongs p
    cases step_inv hs with
    | access _ f hst hk =>
      obtain ⟨hp, heq | hother⟩ := h.access hpid hst hk
      · exact belongs_goto (fun q hq => (congrArg (Belongs · _ _) heq).mpr (h.belongs q)) hp q
      · exact belongs_goto (fun q hq => (h.belongs q).of_not (hother q hq)) hp q
    | acquire _ l k hst hk hl | release _ l k hst hk hl =>
      refine belongs_goto hall ?_ q
      cases hloc : m.loc p <;> rw [hloc] at hk hp <;> cases hk <;> first | exact hp | trivial
    | wakeup _ c k hst hk =>
      refine belongs_goto hall ?_ q
      cases hloc : m.loc p <;> rw [hloc] at hk <;> rcases hk with ⟨hk, -⟩ | ⟨hk, -⟩ <;> cases hk <;>
        trivial
    | resume _ l k hst hl =>
      refine belongs_goto hall ?_ q
      obtain ⟨c, hk⟩ := h.inv.owned.code_resume hst
      cases hloc : m.loc p <;> rw [hloc] at hk hp <;> cases hk
      exact hp
    | interrupted _ yes no hst hk => cases hloc : m.loc p <;> rw [hloc] at hk <;> cases hk
    | _ => exact h.belongs q

/-- **A sleep lock belongs to one process.** Let any number of processes with different pids call
`acquiresleep` and `releasesleep`, interleaved in any way, and release the lock only when they hold
it. Then:
* a process about to return from `acquiresleep` holds the lock;
* a process that holds the lock does so until it gives it back itself;
* a process sleeps in `acquiresleep` only while the lock is taken, or while a `releasesleep` that
  has freed it has yet to finish its wakeup. -/
theorem sleeplock_owned (hpid : Function.Injective pid) {us : List (Use P)}
    (hr : Run (use pid) (Tests pid) (start P free ⟨false, 0⟩) us m) :
    (∀ p, m.loc p = .consumerRelease → m.shared.holdingsleep (pid p) = true) ∧
    (∀ p u m', use pid m u = some m' → u ≠ .go p →
      m.shared.holdingsleep (pid p) = true → m'.shared.holdingsleep (pid p) = true) ∧
    ∀ p, (m.status p).isAsleep () = true → m.shared.locked = true ∨ ∃ q, (m.loc q).Wakes := by
  have h : Owned pid m :=
    hr.invariant ⟨.start _ _, fun _ => trivial⟩ fun h hu hs => h.use hpid hu hs
  refine ⟨fun p hp => by simpa [hp, Belongs] using h.belongs p, fun p u m' hs hne hp => ?_,
    fun p hp => ?_⟩
  · cases u with
    | go q =>
      cases step_inv hs with
      | access _ f hst hk =>
        rcases (h.access hpid hst hk).2 with heq | hother
        · rwa [← heq] at hp
        · exact absurd hp (hother p fun hpq => hne (hpq ▸ rfl))
      | _ => exact hp
    | _ => cases step_inv hs; exact hp
  · obtain ⟨l, k, hst⟩ := Status.isAsleep_iff.mp hp
    refine or_iff_not_imp_left.mpr fun hl => ?_
    obtain ⟨q, -, hq⟩ := h.inv.covered p (by rw [hst]; rfl) (by simpa [free] using hl)
    exact ⟨q, hq⟩

/-- Process `true` takes the lock, and process `false` waits for it. -/
def takeAndWait : List (Use Bool) :=
  [.acquiresleep true, .go true, .go true, .go true, .go true, .acquiresleep false, .go false,
    .go false, .go false, .go false, .go false]

theorem sleeplock_owned_takeAndWait : ∃ m, Run (use Bool.toNat) (Tests Bool.toNat)
    (start Bool free ⟨false, 0⟩) takeAndWait m ∧ m.shared.holdingsleep 1 = true ∧
    (m.status false).isAsleep () = true ∧ (m.shared.locked = true ∨ ∃ q, (m.loc q).Wakes) := by
  have hexec : (takeAndWait.foldlM (guarded (use Bool.toNat) (Tests Bool.toNat))
      (start Bool free ⟨false, 0⟩)).any (fun m => m.shared.holdingsleep 1 &&
        (m.status false).isAsleep ()) = true := by
    decide +kernel
  obtain ⟨m, hm, hcheck⟩ := (Option.any_eq_true _ _).mp hexec
  rw [Bool.and_eq_true] at hcheck
  have hrun := Run.of_foldlM hm
  have hpid : Function.Injective Bool.toNat := by unfold Function.Injective; decide
  exact ⟨m, hrun, hcheck.1, hcheck.2, (sleeplock_owned hpid hrun).2.2 false hcheck.2⟩

end Sleeplock

end Dave.Sync
