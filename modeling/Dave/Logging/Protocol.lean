import Dave.Logging.Machine

/-!
# Who is in an operation and who commits

The part of the invariant of the logging system that speaks of the processes only: `outstanding`
counts the processes between `begin_op` and `end_op`, at most one process is in `commit`,
`committing` says whether there is one, and then no process is inside an operation.
-/

namespace Dave.Logging

open Function

variable {P : Type} [DecidableEq P] [Fintype P]

/-- The process is between `begin_op` and `end_op`. -/
def Proc.isInOp : Proc → Bool
  | .inOp _ => true
  | _ => false

/-- The process is inside `commit` or about to reset `committing`. -/
def Proc.isCommit : Proc → Bool
  | .commit _ => true
  | _ => false

/-- The processes that are between `begin_op` and `end_op`. -/
def active (proc : P → Proc) : Finset P := {p | (proc p).isInOp = true}

variable {proc : P → Proc} {p : P}

omit [DecidableEq P] in
@[simp] theorem mem_active : p ∈ active proc ↔ (proc p).isInOp = true := by
  simp [active]

theorem isInOp_iff {q : Proc} : q.isInOp = true ↔ ∃ o, q = .inOp o := by
  cases q <;> simp [Proc.isInOp]

omit [DecidableEq P] [Fintype P] in
@[simp] theorem isInOp_wakeup (proc : P → Proc) (p : P) :
    (wakeup proc p).isInOp = (proc p).isInOp := by
  unfold wakeup
  cases proc p <;> rfl

omit [DecidableEq P] [Fintype P] in
@[simp] theorem isCommit_wakeup (proc : P → Proc) (p : P) :
    (wakeup proc p).isCommit = (proc p).isCommit := by
  unfold wakeup
  cases proc p <;> rfl

omit [DecidableEq P] in
@[simp] theorem active_wakeup (proc : P → Proc) : active (wakeup proc) = active proc := by
  ext p
  simp

theorem active_update_inOp (proc : P → Proc) (p : P) (o : Op) :
    active (update proc p (.inOp o)) = insert p (active proc) := by
  ext q
  by_cases h : q = p
  · subst h
    simp [Proc.isInOp]
  · simp [h]

theorem active_update_of_not {q : Proc} (hq : q.isInOp = false) :
    active (update proc p q) = (active proc).erase p := by
  ext r
  by_cases h : r = p
  · subst h
    simp [hq]
  · simp [h]

/-- `outstanding` and `committing` agree with what the processes are doing. -/
structure Agrees (m : Machine P) : Prop where
  /-- `outstanding` counts the processes inside an operation. -/
  outstanding : m.log.outstanding = (active m.proc).card
  /-- `committing` is set exactly while some process is in `commit`. -/
  committing : m.log.committing = true ↔ ∃ p, (m.proc p).isCommit = true
  /-- At most one process is in `commit`. -/
  unique : ∀ p q, (m.proc p).isCommit = true → (m.proc q).isCommit = true → p = q
  /-- During a commit no process is inside an operation. -/
  exclusive : m.log.committing = true → active m.proc = ∅
  /-- Before the processes start they are all idle. -/
  quiet : m.phase ≠ .running → m.phase ≠ .panicked → ∀ p, m.proc p = .idle

variable {m : Machine P} {o : Op}

omit [DecidableEq P] in
theorem Agrees.not_committing_of_inOp (h : Agrees m) (hp : m.proc p = .inOp o) :
    m.log.committing = false := by
  by_contra hc
  have hempty := h.exclusive (by simpa using hc)
  have hmem : p ∈ active m.proc := by simp [hp, Proc.isInOp]
  simp [hempty] at hmem

omit [DecidableEq P] in
theorem Agrees.initial (h : Initial m) : Agrees m where
  outstanding := by
    have hproc : active m.proc = ∅ := by ext p; simp [h.proc, Proc.isInOp]
    rw [h.outstanding, hproc, Finset.card_empty]
  committing := by simp [h.committing, h.proc, Proc.isCommit]
  unique p q hp := by simp [h.proc, Proc.isCommit] at hp
  exclusive hc := by simp [h.committing] at hc
  quiet _ _ p := by rw [h.proc]

/-! ### Preservation -/

section

variable (h : Agrees m)

include h

omit [DecidableEq P] in
theorem Agrees.congr {m' : Machine P} (hproc : m'.proc = m.proc)
    (ho : m'.log.outstanding = m.log.outstanding) (hc : m'.log.committing = m.log.committing)
    (hphase : m'.phase = m.phase ∨ m'.phase = .running ∨ m'.phase = .panicked ∨
      (m.phase ≠ .running ∧ m.phase ≠ .panicked)) : Agrees m' where
  outstanding := by rw [ho, hproc, h.outstanding]
  committing := by rw [hc, hproc, h.committing]
  unique := by rw [hproc]; exact h.unique
  exclusive := by rw [hc, hproc]; exact h.exclusive
  quiet h1 h2 := by
    rw [hproc]
    rcases hphase with hp | hp | hp | hp
    · exact h.quiet (hp ▸ h1) (hp ▸ h2)
    · exact absurd hp h1
    · exact absurd hp h2
    · exact h.quiet hp.1 hp.2

theorem Agrees.beginOp (hrun : m.phase = .running) (hp : m.proc p = .idle ∨ m.proc p = .woken) :
    Agrees (beginOp m p) := by
  have hnot : (m.proc p).isInOp = false ∧ (m.proc p).isCommit = false := by
    rcases hp with hp | hp <;> simp [hp, Proc.isInOp, Proc.isCommit]
  -- outside an operation, neither falling asleep nor starting one can look like a commit
  have hcommit (q : Proc) (hq : q.isCommit = false) (r : P) :
      (update m.proc p q r).isCommit = (m.proc r).isCommit := by
    by_cases hr : r = p
    · subst hr; simp [hq, hnot.2]
    · rw [update_of_ne hr]
  unfold Logging.beginOp
  split_ifs with hw
  · have hact : active (update m.proc p .asleep) = active m.proc := by
      rw [active_update_of_not rfl, Finset.erase_eq_of_notMem (by simp [hnot.1])]
    exact
      { outstanding := by rw [hact]; exact h.outstanding
        committing := by simp only [hcommit .asleep rfl]; exact h.committing
        unique := by simp only [hcommit .asleep rfl]; exact h.unique
        exclusive := by rw [hact]; exact h.exclusive
        quiet := fun h1 => absurd hrun h1 }
  · have hc : m.log.committing = false := by
      simp only [mustWait, Bool.or_eq_true, not_or] at hw
      simpa using hw.1
    have hmem : p ∉ active m.proc := by simp [hnot.1]
    exact
      { outstanding := by
          rw [active_update_inOp, Finset.card_insert_of_notMem hmem, ← h.outstanding]
        committing := by simp only [hcommit (.inOp _) rfl]; exact h.committing
        unique := by simp only [hcommit (.inOp _) rfl]; exact h.unique
        exclusive := fun hc' => by simp [hc] at hc'
        quiet := fun h1 => absurd hrun h1 }

theorem Agrees.logWrite (b : Word) (data : Block) (hrun : m.phase = .running)
    (hp : m.proc p = .inOp o) : Agrees (logWrite m p o b data) := by
  unfold Logging.logWrite
  split_ifs
  · exact h.congr rfl rfl rfl (.inr (.inr (.inl rfl)))
  · exact h.congr rfl rfl rfl (.inr (.inr (.inl rfl)))
  all_goals
    have hmem : p ∈ active m.proc := by simp [hp, Proc.isInOp]
    have hcommit (o' : Op) (r : P) :
        (update m.proc p (.inOp o') r).isCommit = (m.proc r).isCommit := by
      by_cases hr : r = p
      · subst hr; simp [hp, Proc.isCommit]
      · rw [update_of_ne hr]
    have hc := h.not_committing_of_inOp hp
    exact
      { outstanding := by
          rw [active_update_inOp, Finset.insert_eq_self.mpr hmem]; exact h.outstanding
        committing := by simp only [hcommit]; exact h.committing
        unique := by simp only [hcommit]; exact h.unique
        exclusive := fun hc' => by simp [hc] at hc'
        quiet := fun h1 => absurd hrun h1 }

theorem Agrees.endOp (hrun : m.phase = .running) (hp : m.proc p = .inOp o) :
    Agrees (endOp m p) := by
  have hc := h.not_committing_of_inOp hp
  have hmem : p ∈ active m.proc := by simp [hp, Proc.isInOp]
  have hcard : (active m.proc).card - 1 = ((active m.proc).erase p).card :=
    (Finset.card_erase_of_mem hmem).symm
  have hno : ∀ r, (m.proc r).isCommit = false := by
    intro r
    by_contra hr
    have := h.committing.mpr ⟨r, by simpa using hr⟩
    simp [hc] at this
  unfold Logging.endOp
  rw [if_neg (by simp [hc])]
  by_cases hlast : m.log.outstanding - 1 = 0
  · -- the last operation: its process alone is in `commit`, and no other is active
    rw [if_pos hlast]
    have hempty : (active m.proc).erase p = ∅ := by
      rw [h.outstanding, hcard, Finset.card_eq_zero] at hlast
      exact hlast
    have hcommit (q : Proc) (r : P) (hr : (update m.proc p q r).isCommit = true) : r = p := by
      by_contra hne
      rw [update_of_ne hne, hno r] at hr
      exact absurd hr (by simp)
    exact
      { outstanding := by rw [active_update_of_not rfl, hempty, Finset.card_empty]
        committing := by simpa using ⟨p, by simp [Proc.isCommit]⟩
        unique := fun r s hr hs => (hcommit _ r hr).trans (hcommit _ s hs).symm
        exclusive := fun _ => by rw [active_update_of_not rfl, hempty]
        quiet := fun h1 => absurd hrun h1 }
  · rw [if_neg hlast]
    have hcommit (r : P) : (update m.proc p .idle r).isCommit = false := by
      by_cases hr : r = p
      · subst hr; simp [Proc.isCommit]
      · rw [update_of_ne hr, hno r]
    exact
      { outstanding := by
          rw [active_wakeup, active_update_of_not rfl, ← hcard, ← h.outstanding]
        committing := by simp [hcommit, hc]
        unique := fun r s hr => by simp [hcommit] at hr
        exclusive := fun hc' => by simp [hc] at hc'
        quiet := fun h1 => absurd hrun h1 }

theorem Agrees.commitStep {pc : Commit} (hrun : m.phase = .running) (hp : m.proc p = .commit pc) :
    Agrees (commitStep m p pc) := by
  have hpc : (m.proc p).isCommit = true := by simp [hp, Proc.isCommit]
  have hcom : m.log.committing = true := h.committing.mpr ⟨p, hpc⟩
  have hnotin : p ∉ active m.proc := by simp [hp, Proc.isInOp]
  have hact (q : Proc) (hq : q.isInOp = false) : active (update m.proc p q) = active m.proc := by
    rw [active_update_of_not hq, Finset.erase_eq_of_notMem hnotin]
  have hcommit (pc' : Commit) (r : P) :
      (update m.proc p (.commit pc') r).isCommit = (m.proc r).isCommit := by
    by_cases hr : r = p
    · subst hr; simp [hp, Proc.isCommit]
    · rw [update_of_ne hr]
  have hkeep (m' : Machine P) (pc' : Commit)
      (hproc : m'.proc = update m.proc p (.commit pc'))
      (ho : m'.log.outstanding = m.log.outstanding)
      (hc : m'.log.committing = m.log.committing) (hph : m'.phase = m.phase) : Agrees m' :=
    { outstanding := by rw [ho, hproc, hact _ rfl, h.outstanding]
      committing := by simp only [hc, hproc, hcommit, h.committing]
      unique := by simp only [hproc, hcommit]; exact h.unique
      exclusive := by rw [hc, hproc, hact _ rfl]; exact h.exclusive
      quiet := fun h1 => absurd (hph.trans hrun) h1 }
  cases pc with
  | writeLog tail =>
    simp only [Logging.commitStep]
    split_ifs
    · exact hkeep _ (.writeLog (tail + 1)) rfl rfl rfl rfl
    · exact hkeep _ .writeHead rfl rfl rfl rfl
  | writeHead => exact hkeep _ (.installTrans 0) rfl rfl rfl rfl
  | installTrans tail =>
    simp only [Logging.commitStep]
    split_ifs
    · exact hkeep _ (.installTrans (tail + 1)) rfl rfl rfl rfl
    · exact hkeep _ .clear rfl rfl rfl rfl
  | clear => exact hkeep _ .done rfl rfl rfl rfl
  | done =>
    have hidle (r : P) : (update m.proc p .idle r).isCommit = false := by
      by_cases hr : r = p
      · subst hr; simp [Proc.isCommit]
      · rw [update_of_ne hr]
        by_contra hne
        exact hr (h.unique r p (by simpa using hne) hpc)
    exact
      { outstanding := by
          simp only [Logging.commitStep, active_wakeup, hact .idle rfl]; exact h.outstanding
        committing := by simp [Logging.commitStep, hidle]
        unique := fun r s hr => by simp [Logging.commitStep, hidle] at hr
        exclusive := fun hc' => by simp [Logging.commitStep] at hc'
        quiet := fun h1 => absurd hrun h1 }

omit [DecidableEq P] in
theorem Agrees.recoverStep {m' : Machine P} (hs : recoverStep m = some m') : Agrees m' := by
  unfold Logging.recoverStep at hs
  cases hph : m.phase with
  | boot =>
    simp only [hph, Option.some.injEq] at hs
    subst hs
    exact h.congr rfl rfl rfl (by simp [hph])
  | installTrans tail =>
    simp only [hph] at hs
    split_ifs at hs <;> simp only [Option.some.injEq] at hs <;> subst hs <;>
      exact h.congr rfl rfl rfl (by simp [hph])
  | clear =>
    simp only [hph, Option.some.injEq] at hs
    subst hs
    exact h.congr rfl rfl rfl (by simp [hph])
  | recovered =>
    simp only [hph, Option.some.injEq] at hs
    subst hs
    exact h.congr rfl rfl rfl (by simp)
  | running | panicked => simp [hph] at hs

end

omit [DecidableEq P] in
theorem Agrees.crash (m : Machine P) : Agrees (crash m) where
  outstanding := by
    have hproc : active (Logging.crash m).proc = ∅ := by
      ext p; simp [Logging.crash, Proc.isInOp]
    rw [hproc]
    rfl
  committing := by simp [Logging.crash, Proc.isCommit]
  unique p q hp := by simp [Logging.crash, Proc.isCommit] at hp
  exclusive hc := by simp [Logging.crash] at hc
  quiet _ _ p := rfl

end Dave.Logging
