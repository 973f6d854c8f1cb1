import Dave.Proc.Invariant

/-!
# `kill` and free slots

`kill` looks for a pid in every slot of the table, free ones included. A slot that was never used
or that `wait` has reaped has pid 0, and a slot that `fork` has given up keeps the pid it was given.
So `kill(0)`, or `kill` with the pid of a failed `fork`, succeeds and marks a free slot, and since
`allocproc` does not clear `killed` the next process in that slot starts as a killed process
(`kill_hits_free_slot`). A slot also stays marked if `kill` finds it while `fork` is filling it and
`fork` then fails.

These are the only ways: in a run without them every free slot has `killed = 0`
(`Unmarked.run`).
-/

namespace Dave.Proc

open Function

variable {C : Type} [DecidableEq C]

/-! ### The condition -/

/-- No free slot has the pid that `kill` looks for, and `fork` does not give up a slot that `kill`
has marked. -/
def Aimed (m : Machine C) : Event C → Prop
  | .kill _ pid => ∀ s, (m.table s).state = .unused → (m.table s).pid ≠ pid
  | .kstack c ok | .copyuvm c ok =>
    ok = false → ∀ p np, m.cpu c = some p → (m.pos p).newborn = some np →
      (m.table np).killed = false
  | _ => True

instance (m : Machine C) (e : Event C) : Decidable (Aimed m e) := by
  cases e <;> unfold Aimed <;> infer_instance

/-- A run whose events all are `Aimed`. -/
abbrev AimedRun (m₀ : Machine C) : List (Event C) → Machine C → Prop := Dave.Run step Aimed m₀

variable {m m' : Machine C}

/-! ### Marks of free slots -/

theorem killed_wakeup1 (chan : Option Chan) (t : Table) (s : Slot) :
    (wakeup1 chan t s).killed = (t s).killed := by
  unfold wakeup1
  split_ifs <;> rfl

theorem killed_adopt (p : Slot) (t : Table) (x s : Slot) :
    (adopt p t x s).killed = (t s).killed := by
  have hupdate : (update t x { t x with parent := some initproc } s).killed = (t s).killed := by
    by_cases hs : s = x
    · subst hs
      simp
    · rw [update_of_ne hs]
  unfold adopt
  split_ifs
  · simp only [killed_wakeup1, hupdate]
  · exact hupdate
  · rfl

theorem killed_exitTable (p : Slot) (t : Table) (s : Slot) :
    (exitTable p t s).killed = (t s).killed := by
  have hfold (ss : List Slot) (t : Table) : (ss.foldl (adopt p) t s).killed = (t s).killed := by
    induction ss generalizing t with
    | nil => rfl
    | cons x ss ih => rw [List.foldl_cons, ih, killed_adopt]
  rw [exitTable, abandon, hfold, killed_wakeup1]

/-- No free slot is marked. -/
def Unmarked (t : Table) : Prop := ∀ s, (t s).state = .unused → (t s).killed = false

theorem Unmarked.update {t : Table} (h : Unmarked t) {s : Slot} {e : Entry}
    (he : e.state = .unused → e.killed = false) : Unmarked (update t s e) := by
  intro x hx
  by_cases hxs : x = s
  · subst hxs
    rw [update_self] at hx ⊢
    exact he hx
  · rw [update_of_ne hxs] at hx ⊢
    exact h x hx

theorem Unmarked.wait (h : Unmarked m.table) (c : C) (p : Slot) : Unmarked (wait m c p).table := by
  unfold Proc.wait
  split
  · exact h.update fun _ => rfl
  · split_ifs
    · exact h
    · exact h.update (by simp)

theorem Unmarked.dispatch (h : Unmarked m.table) (c : C) (p : Slot) :
    Unmarked (dispatch m c p).table := by
  unfold Proc.dispatch
  simp only [update_self, update_idem]
  split
  · exact h.update (by simp)
  · refine Unmarked.wait ?_ c p
    exact h.update (by simp)
  · exact h.update (by simp)

theorem Unmarked.kill {t : Table} (h : Unmarked t) {pid : Pid}
    (hpid : ∀ s, (t s).state = .unused → (t s).pid ≠ pid) : Unmarked (kill t pid).2 := by
  by_cases hex : ∃ s, (t s).pid = pid
  · obtain ⟨s, hs, hkill⟩ := exists_kill hex
    rw [hkill]
    refine h.update fun hst => absurd hs (hpid s ?_)
    exact ((Woken.kill (t s)).state_iff (by simp) (by simp)).mp hst
  · rw [kill_of_forall fun s hs => hex ⟨s, hs⟩]
    exact h

theorem Unmarked.exit (h : Unmarked m.table) (c : C) (p : Slot) : Unmarked (exit m c p).table := by
  have hexit : Unmarked (exitTable p m.table) := fun s hs => by
    have hw := wakes_exitTable p m.table s
    rw [killed_exitTable]
    exact h s (by rwa [hw.state_iff (by simp) (by simp), reparent_state] at hs)
  exact hexit.update (by simp)

theorem Unmarked.step {e : Event C} (h : Unmarked m.table) (ha : Aimed m e)
    (hs : step m e = some m') : Unmarked m'.table := by
  cases step_inv hs with
  | dispatch c p => exact h.dispatch c p
  | idle => exact h
  | yield | sleep => exact h.update (by simp)
  | wakeup chan =>
    intro s hst
    change (wakeup1 (some chan) m.table s).killed = false
    rw [killed_wakeup1]
    exact h s (((wakes_wakeup1 _ _ s).state_iff (by simp) (by simp)).mp hst)
  | kill c p pid => exact h.kill ha
  | fork =>
    unfold Proc.allocproc
    split
    · exact h.update (by simp)
    · exact h
  | kstack => exact h
  | kstackFail c p np hc hpos => exact h.update fun _ => ha rfl p np hc (by rw [hpos]; rfl)
  | copyuvm c p np hc hpos => exact h.update (h np)
  | copyuvmFail c p np hc hpos => exact h.update fun _ => ha rfl p np hc (by rw [hpos]; rfl)
  | forkDone => exact h.update (by simp)
  | exit c p => exact h.exit c p
  | wait c p => exact h.wait c p

theorem Unmarked.run {es : List (Event C)} (hr : AimedRun boot es m) : Unmarked m.table := by
  refine hr.invariant (I := fun m => Unmarked m.table) (fun s _ => ?_) fun h ha hs => h.step ha hs
  simp only [boot]
  split_ifs <;> rfl

/-! ### The main result -/

/-- **`kill` hits only the live process it names.** Take any run in which no `kill` names the pid of
a free slot and no `fork` gives up a slot that `kill` has marked. In every state reached, and for
every `pid` that no free slot has:

* `kill(pid)` returns 0 if and only if a slot in use has that pid; then only `killed` and the state
  of one such slot change;
* otherwise it returns -1 and changes nothing.

And a slot that `fork` allocates next has `killed = 0`. -/
theorem kill_live_only {es : List (Event C)} (hr : AimedRun boot es m) :
    (∀ pid, (∀ s, (m.table s).state = .unused → (m.table s).pid ≠ pid) →
      ((kill m.table pid).1 = 0 ↔ ∃ s, (m.table s).state ≠ .unused ∧ (m.table s).pid = pid) ∧
      ((∃ s, (m.table s).state ≠ .unused ∧ (m.table s).pid = pid) →
        ∃ s, (m.table s).state ≠ .unused ∧ (m.table s).pid = pid ∧
          (kill m.table pid).2 = update m.table s { m.table s with
            killed := true
            state := if (m.table s).state = .sleeping then .runnable else (m.table s).state }) ∧
      ((¬ ∃ s, (m.table s).state ≠ .unused ∧ (m.table s).pid = pid) →
        kill m.table pid = (-1, m.table))) ∧
    ∀ c p np m', m.cpu c = some p → step m (.fork c) = some m' →
      (m'.pos p).newborn = some np → (m'.table np).state = .embryo ∧
        (m'.table np).killed = false := by
  refine ⟨fun pid hpid => ?_, fun c p np m' hc hs hnp => ?_⟩
  · have hused {s : Slot} (hs : (m.table s).pid = pid) : (m.table s).state ≠ .unused :=
      fun hst => hpid s hst hs
    have hnone (hne : ¬ ∃ s, (m.table s).state ≠ .unused ∧ (m.table s).pid = pid) :
        kill m.table pid = (-1, m.table) :=
      kill_of_forall fun s hs => hne ⟨s, hused hs, hs⟩
    refine ⟨⟨fun hzero => ?_, ?_⟩, ?_, hnone⟩
    · by_contra hne
      simp [hnone hne] at hzero
    · rintro ⟨s, -, hs⟩
      obtain ⟨x, -, hkill⟩ := exists_kill ⟨s, hs⟩
      rw [hkill]
    · rintro ⟨s, -, hs⟩
      obtain ⟨x, hx, hkill⟩ := exists_kill ⟨s, hs⟩
      exact ⟨x, hused hx, hx, by rw [hkill]; rfl⟩
  · cases step_inv hs with
    | fork c p' hc' hpos =>
      obtain rfl : p' = p := Option.some.inj (hc'.symm.trans hc)
      cases hfree : freeSlot m.table with
      | some s =>
        simp only [allocproc, hfree, update_self, Pos.newborn, Option.some.injEq] at hnp ⊢
        subst hnp
        rw [update_self]
        exact ⟨rfl, Unmarked.run hr s (state_of_freeSlot hfree)⟩
      | none =>
        simp [allocproc, hfree, hpos, Pos.newborn] at hnp

/-- `kill` of a child that `fork` has not completed yet. -/
theorem kill_live_only_embryo : ∃ m : Machine Unit,
    AimedRun boot [.schedule (), .fork (), .kstack () true] m ∧
    ((kill m.table 2).1 = 0 ↔ ∃ s, (m.table s).state ≠ .unused ∧ (m.table s).pid = 2) := by
  have hexec : (List.foldlM (guarded step Aimed) (boot : Machine Unit)
      [.schedule (), .fork (), .kstack () true]).map
        (fun m => decide (∀ s, (m.table s).state = .unused → (m.table s).pid ≠ 2)) = some true := by
    decide +kernel
  obtain ⟨m, hm, hpid⟩ := Option.map_eq_some_iff.mp hexec
  have hrun := Run.of_foldlM hm
  exact ⟨m, hrun, ((kill_live_only hrun).1 2 (of_decide_eq_true hpid)).1⟩

/-- On a machine that has just booted, `kill(0)` by `initproc` returns 0 although no slot in use has
pid 0, and the next process that `initproc` forks starts as a killed process. -/
theorem kill_hits_free_slot :
    (∃ m : Machine Unit, Run boot [.schedule ()] m ∧
      (∀ s, (m.table s).state ≠ .unused → (m.table s).pid ≠ 0) ∧ (kill m.table 0).1 = 0) ∧
    ∃ m : Machine Unit, Run boot [.schedule (), .kill () 0, .fork ()] m ∧
      ∃ np, m.pos initproc = .allocated np ∧ (m.table np).killed = true := by
  constructor
  · have hexec : (List.foldlM (guarded step anyEvent) (boot : Machine Unit) [.schedule ()]).map
        (fun m => decide ((∀ s, (m.table s).state ≠ .unused → (m.table s).pid ≠ 0) ∧
          (kill m.table 0).1 = 0)) = some true := by
      decide +kernel
    obtain ⟨m, hm, hres⟩ := Option.map_eq_some_iff.mp hexec
    exact ⟨m, Run.of_foldlM hm, of_decide_eq_true hres⟩
  · have hexec : (List.foldlM (guarded step anyEvent) (boot : Machine Unit)
        [.schedule (), .kill () 0, .fork ()]).map
          (fun m => decide (∃ np, m.pos initproc = .allocated np ∧ (m.table np).killed = true)) =
        some true := by
      decide +kernel
    obtain ⟨m, hm, hres⟩ := Option.map_eq_some_iff.mp hexec
    exact ⟨m, Run.of_foldlM hm, of_decide_eq_true hres⟩

end Dave.Proc
