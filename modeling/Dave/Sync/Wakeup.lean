import Dave.Lib.Monitor

/-!
# No lost wakeup

Consumers wait for a condition on data guarded by a lock `lk`, producers make it true. A consumer
takes `lk` and calls `sleep(chan, lk)` as long as the condition is false; a producer makes the
condition true while it holds `lk` and calls `wakeup(chan)` before or after it releases `lk`. The
guarded data, the condition, and what consumers and producers do to the data are arbitrary.

`lk` is `ptable.lock`, written `none`, or another lock. With `ptable.lock` the functions are used as
`wait` and `exit` use them: `sleep` does not take the lock again, and a producer that still holds it
calls `wakeup1`.
-/

namespace Dave.Sync

open Monitor

/-! ### Consumers and producers -/

/-- The locations of consumers and producers that wait for the condition `cond` on the guarded
data. A consumer changes the data by `f` once the condition holds; a producer changes them by `g`,
which makes the condition true; `late` tells that it releases the lock before the wakeup. -/
inductive Loc {S : Type} (cond : S → Bool) where
  | idle
  | consumerAcquire (f : S → S)
  | consumerTest (f : S → S)
  | consumerSleep (f : S → S)
  | consume (f : S → S)
  | consumerRelease
  | producerAcquire (g : S → S) (hg : ∀ s, cond (g s) = true) (late : Bool)
  | produce (g : S → S) (hg : ∀ s, cond (g s) = true) (late : Bool)
  /-- the condition has been made true, about to wake up the sleepers with `lk` held -/
  | wakeupHeld
  | producerRelease
  /-- the condition has been made true, about to release `lk` before the wakeup -/
  | releaseFirst
  /-- `lk` has been released, about to wake up the sleepers -/
  | wakeupLate

variable {S : Type} {cond : S → Bool}

/-- Where a process may start. -/
def Loc.starts : Loc cond → Bool
  | .consumerAcquire _ | .producerAcquire _ _ _ => true
  | _ => false

/-- The code of consumers and producers; the only channel is `chan`. -/
def code (cond : S → Bool) (lk : Option Unit) : Loc cond → Act Unit Unit S (Loc cond)
  | .idle => .choose Loc.starts
  | .consumerAcquire f => .acquire lk (.consumerTest f)
  | .consumerTest f => .access fun s => (s, if cond s then .consume f else .consumerSleep f)
  | .consumerSleep f => .sleep () lk (.consumerTest f)
  | .consume f => .access fun s => (f s, .consumerRelease)
  | .consumerRelease => .release lk .idle
  | .producerAcquire g hg late => .acquire lk (.produce g hg late)
  | .produce g _ late => .access fun s => (g s, if late then .releaseFirst else .wakeupHeld)
  | .wakeupHeld =>
    match lk with
    | none => .wakeup1 () .producerRelease
    | some _ => .wakeup () .producerRelease
  | .producerRelease => .release lk .idle
  | .releaseFirst => .release lk .wakeupLate
  | .wakeupLate => .wakeup () .idle

/-- The processes, with the guarded data in state `s`, before any of them has started. -/
def start (P : Type) (cond : S → Bool) (s : S) : State P Unit Unit S (Loc cond) where
  shared := s
  lock _ := none
  status _ := .run
  loc _ := .idle
  mark _ := false

/-- The producer has made the condition true and has not finished its wakeup. -/
def Loc.Wakes : Loc cond → Prop
  | .wakeupHeld | .releaseFirst | .wakeupLate => True
  | _ => False

/-! ### The invariant -/

/-- The locations where `lk` is held. -/
def Loc.locked : Loc cond → Bool
  | .consumerTest _ | .consumerSleep _ | .consume _ | .consumerRelease | .produce _ _ _
  | .wakeupHeld | .producerRelease | .releaseFirst => true
  | _ => false

/-- The lock held at a location. -/
def holds (lk : Option Unit) (k : Loc cond) (x : Option Unit) : Prop := x = lk ∧ k.locked = true

/-- A consumer about to sleep has found the condition false, one about to consume has found it
true. -/
def Tested (k : Loc cond) (s : S) : Prop :=
  match k with
  | .consumerSleep _ => cond s = false
  | .consume _ => cond s = true
  | _ => True

theorem respects (lk : Option Unit) : Respects (code cond lk) (holds lk) := by
  intro k
  cases k with
  | consumerTest f =>
    intro s x
    cases hc : cond s <;> simp [hc, holds, Loc.locked]
  | produce g hg late => cases late <;> simp [code, holds, Loc.locked]
  | wakeupHeld | consumerSleep f => cases lk <;> simp [code, holds, Loc.locked]
  | idle =>
    intro k' hk' x
    cases k' <;> simp [Loc.starts] at hk' <;> simp [holds, Loc.locked]
  | _ => simp [code, holds, Loc.locked]

theorem asserts (lk : Option Unit) : Asserts (code cond lk) (holds lk) Tested where
  next k s hk := by
    cases k with
    | consumerTest f =>
      cases hc : cond s <;> simp [code, hc, Tested]
    | produce g hg late => cases late <;> trivial
    | wakeupHeld => cases lk <;> trivial
    | idle =>
      intro k' hk'
      cases k' <;> simp [Loc.starts] at hk' <;> trivial
    | _ => trivial
  wake k c l k' hk s := by
    cases k with
    | consumerSleep f =>
      cases hk
      trivial
    | wakeupHeld => cases lk <;> cases hk
    | _ => cases hk
  free k f k' s hk _ hk' hfree := by
    have hlocked : k.locked = true := by
      cases k with
      | wakeupHeld | consumerTest | consume | produce => rfl
      | _ => cases hk
    -- where the condition matters the lock is held, so nobody else is at an access
    cases k' with
    | consumerSleep | consume => exact absurd ⟨rfl, rfl⟩ (hfree lk ⟨rfl, hlocked⟩)
    | _ => trivial

variable {P : Type} [DecidableEq P]

structure Inv (lk : Option Unit) (m : State P Unit Unit S (Loc cond)) : Prop where
  owned : Owned (code cond lk) (holds lk) m
  asserted : Asserted Tested m
  covered : Covered () (fun s => cond s = true) Loc.Wakes m

theorem Inv.start (lk : Option Unit) (s : S) : Inv lk (start P cond s) where
  owned := .init (fun _ => rfl) (fun _ => rfl) fun _ _ hx => by
    simp [Sync.start, holds, Loc.locked] at hx
  asserted _ _ := trivial
  covered _ hq := hq.elim

theorem Inv.step {lk : Option Unit} {m m' : State P Unit Unit S (Loc cond)}
    {e : Event P (Loc cond)} (h : Inv lk m) (hs : step (code cond lk) m e = some m') :
    Inv lk m' where
  owned := h.owned.step (respects lk) hs
  asserted := h.asserted.step (asserts lk) h.owned hs
  covered := by
    refine h.covered.step h.owned hs (fun k ks hk => ?_) (fun k c l k' hk => ?_)
      (fun p l k hp hk => ?_) (fun p f hp hk hr hn => ?_) fun p k he hp howes hnext _ hk hk' _ => ?_
    · cases k with
      | idle => exact id
      | wakeupHeld => cases lk <;> cases hk
      | _ => cases hk
    · cases k with
      | consumerSleep => exact id
      | wakeupHeld => cases lk <;> cases hk
      | _ => cases hk
    · have ha := h.asserted p hp
      cases hloc : m.loc p with
      | consumerSleep f => simpa [hloc, Tested] using ha
      | wakeupHeld => rw [hloc] at hk; cases lk <;> cases hk
      | _ => rw [hloc] at hk; cases hk
    · -- only a producer makes the condition true
      cases hloc : m.loc p with
      | consumerTest f' => rw [hloc] at hk; cases hk; exact absurd hr hn
      | consume f' =>
        have ha := h.asserted p hp
        rw [hloc] at ha
        exact absurd ha hn
      | produce g hg late => rw [hloc] at hk; cases hk; cases late <;> trivial
      | wakeupHeld => rw [hloc] at hk; cases lk <;> cases hk
      | _ => rw [hloc] at hk; cases hk
    · -- a producer leaves the locations that owe a wakeup only by the wakeup
      cases hloc : m.loc p with
      | wakeupHeld =>
        rw [hloc] at hk hk'
        cases lk with
        | none => exact absurd rfl (hk' _)
        | some => exact absurd rfl (hk _)
      | releaseFirst =>
        rw [hloc] at hnext
        obtain rfl : k = .wakeupLate := hnext
        trivial
      | wakeupLate =>
        rw [hloc] at hk
        exact absurd rfl (hk _)
      | _ => rw [hloc] at howes; exact howes.elim

theorem Inv.run {lk : Option Unit} {s : S} {es : List (Event P (Loc cond))}
    {m : State P Unit Unit S (Loc cond)}
    (hr : Run (Monitor.step (code cond lk)) anyEvent (Sync.start P cond s) es m) : Inv lk m :=
  hr.invariant (.start lk s) fun h _ hs => h.step hs

/-! ### The main result -/

/-- **No lost wakeup.** Let any number of processes run consumers and producers, any number of times
and interleaved in any way, from any state of the data. If a process is asleep on the channel while
the condition is true, then some producer has made the condition true and has not finished its
wakeup. -/
theorem no_lost_wakeup {lk : Option Unit} {s : S} {es : List (Event P (Loc cond))}
    {m : State P Unit Unit S (Loc cond)}
    (hr : Run (step (code cond lk)) anyEvent (start P cond s) es m) {p : P}
    (hp : (m.status p).isAsleep () = true) (hc : cond m.shared = true) :
    ∃ q, m.status q = .run ∧ (m.loc q).Wakes := by
  obtain ⟨l, k, hst⟩ := Status.isAsleep_iff.mp hp
  exact (Inv.run hr).covered p (by rw [hst]; rfl) hc

/-- The condition of `sleep1.p`. -/
def positive (value : ℕ) : Bool := decide (0 < value)

/-- The consumer of `sleep1.p` waits until `value` is positive and decrements it. -/
def counterConsumer : Loc positive := .consumerAcquire (· - 1)

/-- The producer of `sleep1.p` increments `value` and makes the wakeup after the release. -/
def counterProducer : Loc positive :=
  .producerAcquire (· + 1) (fun value => by simp [positive]) true

/-- A consumer finds `value = 0` and sleeps; a producer increments `value` and is about to release
the lock. -/
def sleepThenProduce : List (Event Bool (Loc positive)) :=
  [.pick true counterConsumer, .go true, .go true, .go true, .go true, .go true,
    .pick false counterProducer, .go false, .go false]

/-- At the end of this run the consumer sleeps although the condition is true, and the producer owes
the wakeup. -/
theorem no_lost_wakeup_counter : ∃ m : State Bool Unit Unit ℕ (Loc positive),
    Run (step (code positive (some ()))) anyEvent (start Bool positive 0) sleepThenProduce m ∧
    (m.status true).isAsleep () = true ∧ positive m.shared = true ∧
    ∃ q, m.status q = .run ∧ (m.loc q).Wakes := by
  have hexec : (sleepThenProduce.foldlM (guarded (step (code positive (some ()))) anyEvent)
      (start Bool positive 0)).map (fun m => ((m.status true).isAsleep (), positive m.shared)) =
        some (true, true) := by
    decide +kernel
  obtain ⟨m, hm, heq⟩ := Option.map_eq_some_iff.mp hexec
  have hrun := Run.of_foldlM hm
  have hp : (m.status true).isAsleep () = true := congrArg Prod.fst heq
  have hc : positive m.shared = true := congrArg Prod.snd heq
  exact ⟨m, hrun, hp, hc, no_lost_wakeup hrun hp hc⟩

end Dave.Sync
