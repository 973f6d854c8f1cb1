import Dave.Logging.Crash
import Mathlib.Algebra.BigOperators.Group.Finset.Basic
import Mathlib.Algebra.Order.BigOperators.Group.Finset

/-!
# Log space reservation

`begin_op` admits an operation only if the entries already in the log and `MAXOPBLOCKS` entries for
every outstanding operation, the new one included, fit in the log. This file shows that the
entries in the log and what the outstanding operations may still append always fit, for runs in
which no operation logs more than `MAXOPBLOCKS` distinct blocks, and that a process that waits for
space waits for an operation or a commit that is in progress.
-/

namespace Dave.Logging

open Finset Function

variable {P : Type} [DecidableEq P] [Fintype P]

/-! ### Runs that keep to the reservations -/

/-- The distinct blocks that the operation of a process has logged. -/
def Proc.blocks : Proc → Finset Word
  | .inOp o => o.blocks
  | _ => ∅

/-- The event keeps its operation within `MAXOPBLOCKS` distinct blocks. -/
def Frugal (m : Machine P) : Event P → Prop
  | .logWrite p b _ => (insert b (m.proc p).blocks).card ≤ maxOpBlocks
  | _ => True

instance (m : Machine P) (e : Event P) : Decidable (Frugal m e) := by
  cases e <;> unfold Frugal <;> infer_instance

/-- A run in which each operation logs at most `MAXOPBLOCKS` distinct blocks. -/
abbrev FrugalRun : Machine P → List (Event P) → Machine P → Prop := Dave.Run step Frugal

variable {es : List (Event P)}

omit [Fintype P] in
theorem FrugalRun.run {m₀ m : Machine P} (h : FrugalRun m₀ es m) : Run m₀ es m :=
  h.mono fun _ _ _ => trivial

/-! ### The invariant -/

/-- The number of log entries that the operation of a process has appended. -/
def Proc.appended : Proc → ℕ
  | .inOp o => o.appended
  | _ => 0

/-- The entries that the outstanding operations may still append. -/
def pending (proc : P → Proc) : ℕ := ∑ p ∈ active proc, (maxOpBlocks - (proc p).appended)

/-- The test of `begin_op` that makes a process wait. -/
def Waits (l : Log) : Prop :=
  l.committing = true ∨ l.lh.length + (l.outstanding + 1) * maxOpBlocks > logSize

theorem mustWait_iff (l : Log) : mustWait l = true ↔ Waits l := by
  simp [mustWait, Waits]

/-- The reservations are respected. -/
structure Reserved (m : Machine P) : Prop where
  nodup : m.log.lh.Nodup
  fits : m.log.lh.length + pending m.proc ≤ logSize
  /-- The blocks an operation has logged are entries, at least as many as it appended. -/
  blocks : ∀ p o, m.proc p = .inOp o →
    o.appended ≤ o.blocks.card ∧ o.blocks.card ≤ maxOpBlocks ∧ ∀ b ∈ o.blocks, b ∈ m.log.lh
  asleep : ∀ p, m.proc p = .asleep → Waits m.log
  /-- Without operations and commits the log is empty. -/
  empty : (∀ t, m.phase ≠ .installTrans t) → m.log.outstanding = 0 → m.log.committing = false →
    m.log.lh = []
  /-- At the end of a commit the log is empty. -/
  done : ∀ p, m.proc p = .commit .done ∨ m.proc p = .commit .clear → m.log.lh = []

variable {proc : P → Proc}

section

omit [DecidableEq P]

theorem pending_eq_zero (h : active proc = ∅) : pending proc = 0 := by
  simp [pending, h]

theorem pending_congr {proc' : P → Proc} (hact : active proc' = active proc)
    (h : ∀ p ∈ active proc, proc' p = proc p) : pending proc' = pending proc := by
  unfold pending
  rw [hact]
  exact sum_congr rfl fun p hp => by rw [h p hp]

end

theorem pending_wakeup (proc : P → Proc) : pending (wakeup proc) = pending proc := by
  refine pending_congr (active_wakeup proc) fun p hp => ?_
  obtain ⟨o, ho⟩ := isInOp_iff.mp (mem_active.mp hp)
  simp [wakeup, ho]

omit [DecidableEq P] in
theorem pending_le (proc : P → Proc) : pending proc ≤ (active proc).card * maxOpBlocks := by
  unfold pending
  simpa using sum_le_card_nsmul (active proc) _ maxOpBlocks fun p _ => Nat.sub_le _ _

theorem pending_update_inOp (proc : P → Proc) (p : P) (o : Op) : pending (update proc p (.inOp o)) =
      (maxOpBlocks - o.appended) +
        ∑ q ∈ (active proc).erase p, (maxOpBlocks - (proc q).appended) := by
  unfold pending
  rw [active_update_inOp, ← insert_erase (mem_insert_self p (active proc)),
    sum_insert (notMem_erase p _), erase_insert_eq_erase]
  simp only [update_self, Proc.appended]
  congr 1
  refine sum_congr rfl fun q hq => ?_
  rw [update_of_ne (ne_of_mem_erase hq)]

variable {p : P}

theorem pending_update_of_not {q : Proc} (hq : q.isInOp = false) : pending (update proc p q) =
      ∑ r ∈ (active proc).erase p, (maxOpBlocks - (proc r).appended) := by
  unfold pending
  rw [active_update_of_not hq]
  refine sum_congr rfl fun r hr => ?_
  rw [update_of_ne (ne_of_mem_erase hr)]

theorem pending_eq_add_erase {o : Op} (hp : proc p = .inOp o) :
    pending proc = (maxOpBlocks - o.appended) +
      ∑ q ∈ (active proc).erase p, (maxOpBlocks - (proc q).appended) := by
  have hmem : p ∈ active proc := by simp [hp, Proc.isInOp]
  unfold pending
  rw [← add_sum_erase _ _ hmem, hp]
  rfl

section

omit [DecidableEq P] [Fintype P]

theorem not_asleep_wakeup (proc : P → Proc) (p : P) : wakeup proc p ≠ .asleep := by
  unfold wakeup
  split <;> simp_all

theorem commit_of_wakeup {pc : Commit} (h : wakeup proc p = .commit pc) : proc p = .commit pc := by
  unfold wakeup at h
  split at h
  · cases h
  · exact h

end

/-! ### Preservation -/

variable {m₀ m m' : Machine P}

theorem Reserved.initial (h : Initial m) : Reserved m where
  nodup := by simp [h.lh]
  fits := by
    rw [h.lh, pending_eq_zero (by ext p; simp [h.proc, Proc.isInOp])]
    simp
  blocks p o hp := by simp [h.proc] at hp
  asleep p hp := by simp [h.proc] at hp
  empty _ _ _ := h.lh
  done p hp := by simp [h.proc] at hp

section

variable (h : Reserved m)

include h

omit [DecidableEq P] in
theorem Reserved.congr (hproc : m'.proc = m.proc) (hlog : m'.log = m.log)
    (hphase : m'.phase = m.phase ∨ (∀ t, m.phase ≠ .installTrans t) ∨
      ∃ t, m'.phase = .installTrans t) :
    Reserved m' where
  nodup := by rw [hlog]; exact h.nodup
  fits := by rw [hlog, hproc]; exact h.fits
  blocks := by rw [hlog, hproc]; exact h.blocks
  asleep := by rw [hlog, hproc]; exact h.asleep
  empty h1 h2 h3 := by
    rw [hlog] at h2 h3 ⊢
    rcases hphase with hp | hp | ⟨t, hp⟩
    · exact h.empty (fun t => hp ▸ h1 t) h2 h3
    · exact h.empty hp h2 h3
    · exact absurd hp (h1 t)
  done := by rw [hlog, hproc]; exact h.done

theorem Reserved.beginOp (ha : Agrees m) (hp : m.proc p = .idle ∨ m.proc p = .woken) :
    Reserved (beginOp m p) := by
  have hnot : p ∉ active m.proc := by
    rcases hp with hp | hp <;> simp [hp, Proc.isInOp]
  have hne {q : P} {r : Proc} (hr : r.isInOp = true ∨ r.isCommit = true) (hq : m.proc q = r) :
      q ≠ p := by
    rintro rfl
    rcases hp with hp | hp <;> rw [hp] at hq <;> subst hq <;>
      simp [Proc.isInOp, Proc.isCommit] at hr
  unfold Logging.beginOp
  by_cases hw : mustWait m.log = true
  · -- the process falls asleep, and the condition it waits on holds
    rw [if_pos hw]
    have hact : active (update m.proc p .asleep) = active m.proc := by
      rw [active_update_of_not rfl, erase_eq_of_notMem hnot]
    refine ⟨h.nodup, ?_, fun q o hq => h.blocks q o (inOp_of_update rfl hq), fun q hq => ?_,
      h.empty, fun q hq => ?_⟩
    · rw [pending_congr hact fun q hq => update_of_ne (by rintro rfl; exact hnot hq) ..]
      exact h.fits
    · by_cases hqp : q = p
      · exact (mustWait_iff _).mp hw
      · exact h.asleep q (by simpa [hqp] using hq)
    · by_cases hqp : q = p
      · subst hqp; simp at hq
      · exact h.done q (by simpa [hqp] using hq)
  · rw [if_neg hw]
    have hw' : ¬ Waits m.log := fun hwaits => hw ((mustWait_iff _).mpr hwaits)
    simp only [Waits, not_or, not_lt, gt_iff_lt] at hw'
    have hroom := hw'.2
    refine ⟨h.nodup, ?_, fun q o hq => ?_, fun q hq => ?_, fun _ ho => ?_, fun q hq => ?_⟩
    · -- the new reservation fits: the old ones are at most `MAXOPBLOCKS` each
      have hle := pending_le m.proc
      rw [← ha.outstanding] at hle
      rw [pending_update_inOp, erase_eq_of_notMem hnot]
      change m.log.lh.length + (maxOpBlocks - 0 + pending m.proc) ≤ logSize
      rw [Nat.add_mul] at hroom
      omega
    · by_cases hqp : q = p
      · subst hqp
        simp only [update_self, Proc.inOp.injEq] at hq
        subst hq
        simp
      · exact h.blocks q o (by simpa [hqp] using hq)
    · have hqp : q ≠ p := by
        rintro rfl
        simp at hq
      rcases h.asleep q (by simpa [hqp] using hq) with hc | hc
      · exact .inl hc
      · right
        refine Nat.lt_of_lt_of_le hc (Nat.add_le_add_left (Nat.mul_le_mul_right _ ?_) _)
        exact Nat.succ_le_succ (Nat.le_succ _)
    · exact absurd ho (Nat.succ_ne_zero _)
    · by_cases hqp : q = p
      · subst hqp; simp at hq
      · exact h.done q (by simpa [hqp] using hq)

theorem Reserved.logWrite (ha : Agrees m) (hrun : m.phase = .running) {o : Op} {b : Word}
    (data : Block) (hp : m.proc p = .inOp o) (hf : (insert b o.blocks).card ≤ maxOpBlocks) :
    Reserved (logWrite m p o b data) := by
  unfold Logging.logWrite
  by_cases hfull : m.log.lh.length ≥ logSize ∨ m.log.lh.length ≥ m.log.size - 1
  · rw [if_pos hfull]
    exact h.congr rfl rfl (.inr (.inl (by simp [hrun])))
  by_cases hout : m.log.outstanding < 1
  · rw [if_neg hfull, if_pos hout]
    exact h.congr rfl rfl (.inr (.inl (by simp [hrun])))
  rw [if_neg hfull, if_neg hout]
  obtain ⟨happ, hcard, hsub⟩ := h.blocks p o hp
  -- an entry is appended only for a block that the operation had not logged
  have happ' : o.appended + (if b ∈ m.log.lh then 0 else 1) ≤ (insert b o.blocks).card := by
    split_ifs with hb
    · exact happ.trans (card_le_card (subset_insert _ _))
    · rw [card_insert_of_notMem fun hmem => hb (hsub b hmem)]
      exact Nat.succ_le_succ happ
  have hlen : (absorb m.log.lh b).length = m.log.lh.length + if b ∈ m.log.lh then 0 else 1 := by
    unfold absorb
    split_ifs <;> simp
  have hpc (pc : Commit) (q : P) (hq : update m.proc p (.inOp ⟨o.id, insert b o.blocks,
      o.appended + if b ∈ m.log.lh then 0 else 1⟩) q = .commit pc) : False := by
    have hqp : q ≠ p := by
      rintro rfl
      simp at hq
    have hc := ha.committing.mpr ⟨q, by
      rw [update_of_ne hqp] at hq
      simp [hq, Proc.isCommit]⟩
    simp [ha.not_committing_of_inOp hp] at hc
  refine ⟨?_, ?_, fun q op hq => ?_, fun q hq => ?_, fun _ ho => ?_, fun q hq => ?_⟩
  · change (absorb m.log.lh b).Nodup
    unfold absorb
    split_ifs with hb
    · exact h.nodup
    · exact List.nodup_append.mpr ⟨h.nodup, List.nodup_singleton b, by
        intro x hx y hy
        rw [List.mem_singleton.mp hy]
        exact fun hxb => hb (hxb ▸ hx)⟩
  · have hfits := h.fits
    rw [pending_eq_add_erase hp] at hfits
    rw [pending_update_inOp]
    change (absorb m.log.lh b).length + _ ≤ logSize
    rw [hlen]
    simp only
    omega
  · by_cases hqp : q = p
    · subst hqp
      simp only [update_self, Proc.inOp.injEq] at hq
      subst hq
      refine ⟨happ', hf, fun x hx => ?_⟩
      rcases mem_insert.mp hx with rfl | hx
      · exact mem_absorb_self _ _
      · exact subset_absorb _ _ _ (hsub x hx)
    · obtain ⟨h1, h2, h3⟩ := h.blocks q op (by simpa [hqp] using hq)
      exact ⟨h1, h2, fun x hx => subset_absorb _ _ _ (h3 x hx)⟩
  · have hqp : q ≠ p := by
      rintro rfl
      simp at hq
    rcases h.asleep q (by simpa [hqp] using hq) with hc | hc
    · exact .inl hc
    · right
      change (absorb m.log.lh b).length + (m.log.outstanding + 1) * maxOpBlocks > logSize
      rw [hlen]
      omega
  · exact absurd ho (by simpa using hout)
  · rcases hq with hq | hq
    · exact (hpc _ q hq).elim
    · exact (hpc _ q hq).elim

theorem Reserved.endOp (ha : Agrees m) {o : Op} (hp : m.proc p = .inOp o) :
    Reserved (endOp m p) := by
  have hc := ha.not_committing_of_inOp hp
  have hno (q : P) (pc : Commit) : m.proc q ≠ .commit pc :=
    not_commit_of_committing_false ha hc q pc
  have hle : m.log.lh.length +
      ∑ q ∈ (active m.proc).erase p, (maxOpBlocks - (m.proc q).appended) ≤ logSize := by
    have hfits := h.fits
    rw [pending_eq_add_erase hp] at hfits
    omega
  unfold Logging.endOp
  rw [if_neg (by simp [hc])]
  by_cases hlast : m.log.outstanding - 1 = 0
  · rw [if_pos hlast]
    refine ⟨h.nodup, ?_, fun q op hq => h.blocks q op (inOp_of_update rfl hq),
      fun _ _ => .inl rfl, fun _ _ hcom => by simp at hcom, fun q hq => ?_⟩
    · rw [pending_update_of_not rfl]
      exact hle
    · by_cases hqp : q = p
      · subst hqp
        simp only [update_self] at hq
        by_cases hn : 0 < m.log.lh.length
        · simp [hn] at hq
        · simpa using hn
      · simp only [update_of_ne hqp] at hq
        rcases hq with hq | hq
        · exact absurd hq (hno q _)
        · exact absurd hq (hno q _)
  · rw [if_neg hlast]
    refine ⟨h.nodup, ?_, fun q op hq => h.blocks q op (inOp_of_update rfl (inOp_of_wakeup hq)),
      fun q hq => absurd hq (not_asleep_wakeup _ q), fun _ ho => absurd ho hlast,
      fun q hq => ?_⟩
    · rw [pending_wakeup, pending_update_of_not rfl]
      exact hle
    · have hidle (pc : Commit) (hw : wakeup (update m.proc p .idle) q = .commit pc) :
          False := by
        have hq' := commit_of_wakeup hw
        by_cases hqp : q = p
        · subst hqp; simp at hq'
        · exact hno q pc (by simpa [hqp] using hq')
      rcases hq with hq | hq
      · exact (hidle _ hq).elim
      · exact (hidle _ hq).elim

theorem Reserved.commitStep (ha : Agrees m) {pc : Commit} (hp : m.proc p = .commit pc) :
    Reserved (commitStep m p pc) := by
  have hpc : (m.proc p).isCommit = true := by simp [hp, Proc.isCommit]
  have hcom : m.log.committing = true := ha.committing.mpr ⟨p, hpc⟩
  have hempty : active m.proc = ∅ := ha.exclusive hcom
  have hlen : m.log.lh.length ≤ logSize := by
    have := h.fits
    omega
  have hact (q : Proc) (hq : q.isInOp = false) : pending (update m.proc p q) = 0 :=
    pending_eq_zero (by rw [active_update_of_not hq, hempty, erase_empty])
  have hnoOp {r : Proc} (hr : r.isInOp = false) (q : P) (o : Op)
      (hq : update m.proc p r q = .inOp o) : False := by
    have hmem : q ∈ active m.proc := by simp [inOp_of_update hr hq, Proc.isInOp]
    simp [hempty] at hmem
  -- a step that stays in `commit`, keeping the entries or dropping all of them
  have hkeep (m' : Machine P) (pc' : Commit)
      (hproc : m'.proc = update m.proc p (.commit pc'))
      (hc : m'.log.committing = m.log.committing)
      (hlh : m'.log.lh = [] ∨ (m'.log.lh = m.log.lh ∧ pc' ≠ .done ∧ pc' ≠ .clear)) :
      Reserved m' := by
    refine ⟨?_, ?_, fun q o hq => ?_, fun _ _ => .inl (hc.trans hcom),
      fun _ _ hcf => ?_, fun q hq => ?_⟩
    · rcases hlh with hlh | hlh
      · simp [hlh]
      · rw [hlh.1]; exact h.nodup
    · rw [hproc, hact _ rfl]
      rcases hlh with hlh | hlh
      · simp [hlh]
      · rw [hlh.1]; exact hlen
    · exact (hnoOp rfl q o (hproc ▸ hq)).elim
    · rw [hc, hcom] at hcf
      cases hcf
    · rcases hlh with hlh | ⟨-, hd, hcl⟩
      · exact hlh
      · have hqp : q = p := by
          by_contra hne
          rw [hproc, update_of_ne hne] at hq
          exact hne (ha.unique q p (by rcases hq with hq | hq <;> simp [hq, Proc.isCommit]) hpc)
        subst hqp
        rw [hproc, update_self] at hq
        simp only [Proc.commit.injEq] at hq
        rcases hq with hq | hq
        · exact absurd hq hd
        · exact absurd hq hcl
  cases pc with
  | writeLog tail =>
    simp only [Logging.commitStep]
    split_ifs
    · exact hkeep _ (.writeLog (tail + 1)) rfl rfl (.inr ⟨rfl, by simp, by simp⟩)
    · exact hkeep _ .writeHead rfl rfl (.inr ⟨rfl, by simp, by simp⟩)
  | writeHead => exact hkeep _ (.installTrans 0) rfl rfl (.inr ⟨rfl, by simp, by simp⟩)
  | installTrans tail =>
    simp only [Logging.commitStep]
    split_ifs
    · exact hkeep _ (.installTrans (tail + 1)) rfl rfl (.inr ⟨rfl, by simp, by simp⟩)
    · exact hkeep _ .clear rfl rfl (.inl rfl)
  | clear => exact hkeep _ .done rfl rfl (.inl (h.done p (.inr hp)))
  | done =>
    -- the end of the commit: the log is empty and every waiting process is woken
    have hnil := h.done p (.inl hp)
    refine ⟨h.nodup, ?_, fun q o hq => (hnoOp rfl q o (inOp_of_wakeup hq)).elim,
      fun q hq => absurd hq (not_asleep_wakeup _ q), fun _ _ _ => hnil, fun _ _ => hnil⟩
    simp only [Logging.commitStep, pending_wakeup, hact .idle rfl]
    exact hlen

theorem Reserved.recoverStep (hi : Inv m₀ m) (hs : recoverStep m = some m') : Reserved m' := by
  unfold Logging.recoverStep at hs
  cases hph : m.phase with
  | boot =>
    -- the entries read from the disk are those of a header that was written by a commit
    have hidle := hi.agrees.quiet (by simp [hph]) (by simp [hph])
    have hst := hi.stage
    simp only [StageOk, hph] at hst
    have hview : (m.store.bread m.log.start).1 = m.store.disk m.log.start :=
      Store.view_eq_disk hi.disk.clean (hst.1 _)
    have hhead : HeadOk m.log (headOf (m.store.bread m.log.start).1) := hview ▸ hi.disk.head
    simp only [hph, Option.some.injEq] at hs
    subst hs
    refine ⟨hhead.nodup, ?_, fun p o hp => ?_, fun p hp => ?_, fun hne => ?_, fun p hp => ?_⟩
    · rw [pending_eq_zero (by ext p; simp [hidle p, Proc.isInOp])]
      exact hhead.length_le
    · simp [hidle p] at hp
    · simp [hidle p] at hp
    · exact absurd rfl (hne 0)
    · simp [hidle p] at hp
  | installTrans tail =>
    simp only [hph] at hs
    have hidle := hi.agrees.quiet (by simp [hph]) (by simp [hph])
    by_cases hlt : tail < m.log.lh.length
    · rw [if_pos hlt] at hs
      cases hs
      exact h.congr rfl rfl (.inr (.inr ⟨tail + 1, rfl⟩))
    · rw [if_neg hlt] at hs
      cases hs
      refine ⟨List.nodup_nil, ?_, fun p o hp => ?_, fun p hp => ?_, fun _ _ _ => rfl,
        fun _ _ => rfl⟩
      · rw [pending_eq_zero (by ext p; simp [hidle p, Proc.isInOp])]
        simp
      · simp [hidle p] at hp
      · simp [hidle p] at hp
  | clear | recovered =>
    simp only [hph, Option.some.injEq] at hs
    subst hs
    exact h.congr rfl rfl (.inr (.inl (by simp [hph])))
  | running | panicked => simp [hph] at hs

end

theorem Reserved.crash (m : Machine P) : Reserved (crash m) where
  nodup := List.nodup_nil
  fits := by
    have hempty : active (Logging.crash m).proc = ∅ := by
      ext p
      simp [Logging.crash, Proc.isInOp]
    rw [pending_eq_zero hempty]
    exact Nat.zero_le _
  blocks p o hp := by simp [Logging.crash] at hp
  asleep p hp := by simp [Logging.crash] at hp
  empty _ _ _ := rfl
  done _ _ := rfl

theorem Reserved.step {e : Event P} (h : Reserved m) (hi : Inv m₀ m) (hf : Frugal m e)
    (hs : step m e = some m') : Reserved m' := by
  cases step_inv hs with
  | beginOp p hrun hp => exact h.beginOp hi.agrees hp
  | logWrite p o b data hrun hp hb =>
    exact h.logWrite hi.agrees hrun data hp
      (by simpa [Frugal, Proc.blocks, hp] using hf)
  | endOp p o hrun hp => exact h.endOp hi.agrees hp
  | commit p pc hrun hp => exact h.commitStep hi.agrees hp
  | bread b hrun | recycle b d hb => exact h.congr rfl rfl (.inl rfl)
  | recover m' hs => exact h.recoverStep hi hs
  | crash => exact .crash m

theorem Reserved.run (h₀ : Initial m₀) (hr : FrugalRun m₀ es m) : Reserved m := by
  induction hr with
  | nil => exact .initial h₀
  | snoc e hr hf hs ih => exact ih.step (Inv.run h₀ (FrugalRun.run hr)) hf hs

/-! ### The main result -/

/-- **Log space reservation.** In every state of a run in which no operation logs more than
`MAXOPBLOCKS` distinct blocks:

* the entries of the log are pairwise distinct;
* the entries and what the outstanding operations may still append fit in the log;
* during a commit no operation is outstanding, and no `log_write` can happen;
* a process asleep in `begin_op` waits for a commit or for log space, and then some operation is
  outstanding or a commit is running. -/
theorem reservation {es : List (Event P)} (h₀ : Initial m₀) (hr : FrugalRun m₀ es m) :
    m.log.lh.Nodup ∧
    (m.log.outstanding = (active m.proc).card ∧
      m.log.lh.length + ∑ p ∈ active m.proc, (maxOpBlocks - (m.proc p).appended) ≤ logSize) ∧
    (m.log.committing = true → m.log.outstanding = 0 ∧
      ∀ p b data, step m (.logWrite p b data) = none) ∧
    ∀ p, m.proc p = .asleep →
      (m.log.committing = true ∨
        m.log.lh.length + (m.log.outstanding + 1) * maxOpBlocks > logSize) ∧
      (0 < m.log.outstanding ∨ m.log.committing = true) := by
  have hi := Inv.run h₀ hr.run
  have h := Reserved.run h₀ hr
  refine ⟨h.nodup, ⟨hi.agrees.outstanding, h.fits⟩, fun hc => ⟨?_, fun p b data => ?_⟩,
    fun p hp => ⟨h.asleep p hp, ?_⟩⟩
  · rw [hi.agrees.outstanding, hi.agrees.exclusive hc, card_empty]
  · have hno (o : Op) : m.proc p ≠ .inOp o := fun hp => by
      have hmem : p ∈ active m.proc := by simp [hp, Proc.isInOp]
      simp [hi.agrees.exclusive hc] at hmem
    simp only [Logging.step]
    cases hph : m.phase <;> cases hp : m.proc p <;> first | rfl | exact absurd hp (hno _)
  · -- with neither, the log would be empty and the process would not wait
    by_contra hnone
    have ho : m.log.outstanding = 0 := by omega
    have hc : m.log.committing = false := by
      simp only [not_or, Bool.not_eq_true] at hnone
      exact hnone.2
    have hlh := h.empty (fun t ht => by
      have hidle := hi.agrees.quiet (by simp [ht]) (by simp [ht]) p
      simp [hidle] at hp) ho hc
    rcases h.asleep p hp with hw | hw
    · simp [hc] at hw
    · simp [hlh, ho, logSize, maxOpBlocks] at hw

/-- Four processes start an operation: the fourth does not fit and waits. One of the others then
logs a block and ends its operation. -/
theorem reservation_demo : ∃ m, FrugalRun demo
    [.recover, .recover, .recover, .recover, .beginOp 0, .beginOp 1, .beginOp 2, .beginOp 3,
      .logWrite (0 : Fin 4) 40 7] m ∧
    m.proc 3 = .asleep ∧ (0 < m.log.outstanding ∨ m.log.committing = true) := by
  have hexec : (List.foldlM (guarded step Frugal) demo
      [.recover, .recover, .recover, .recover, .beginOp 0, .beginOp 1, .beginOp 2, .beginOp 3,
        .logWrite (0 : Fin 4) 40 7]).map (fun m => m.proc 3) = some .asleep := by
    decide +kernel
  obtain ⟨m, hm, hp⟩ := Option.map_eq_some_iff.mp hexec
  have hrun := Dave.Run.of_foldlM hm
  exact ⟨m, hrun, hp, ((reservation demo_initial hrun).2.2.2 3 hp).2⟩

end Dave.Logging
