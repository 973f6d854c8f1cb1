import Dave.Logging.Recovery

/-!
# Crash atomicity of the log

The invariant of `Dave.Logging.Recovery` along every run of the machine, with crashes at any
point of a commit or of a recovery.
-/

namespace Dave.Logging

open Logging Function RedoLog

variable {P : Type} [DecidableEq P] [Fintype P]

/-! ### The stage of a commit or a recovery -/

/-- What holds while a process is at a given place of `commit`. -/
def CommitOk (d₀ : ℕ → Block) (m : Machine P) : Commit → Prop
  | .writeLog t =>
    Open d₀ m.store m.log m.current m.committed ∧ Written m.store m.log t ∧ t ≤ m.log.lh.length
  | .writeHead =>
    Open d₀ m.store m.log m.current m.committed ∧ Written m.store m.log m.log.lh.length
  | .installTrans t => Installing t m.store m.log m.current
  | .clear => Cleared m.store m.log m.current
  | .done => Open d₀ m.store m.log m.current m.committed

/-- What holds in each phase of the machine. -/
def StageOk (d₀ : ℕ → Block) (m : Machine P) : Prop :=
  match m.phase with
  | .boot => (∀ b, ¬ m.store.Dirty b) ∧ m.current = []
  | .installTrans t => Installing t m.store m.log m.current
  | .clear => Cleared m.store m.log m.current
  | .recovered => Open d₀ m.store m.log m.current m.committed
  | .running =>
    (m.log.committing = false → Open d₀ m.store m.log m.current m.committed) ∧
      ∀ p pc, m.proc p = .commit pc → CommitOk d₀ m pc
  | .panicked => True

/-- The invariant of the machine started from `m₀`. -/
structure Inv (m₀ m : Machine P) : Prop where
  start : m.log.start = m₀.log.start
  size : m.log.size = m₀.log.size
  agrees : Agrees m
  disk : DiskOk m₀.store.disk m.store m.log m.committed
  stage : StageOk m₀.store.disk m

omit [DecidableEq P] in
theorem Inv.initial {m : Machine P} (h : Initial m) : Inv m m where
  start := rfl
  size := rfl
  agrees := .initial h
  disk :=
    { head := by
        rw [(headOf_eq_nil_iff _).mpr h.head]
        exact ⟨by simp, h.size_pos, List.nodup_nil, by simp⟩
      stands := fun b _ => by
        simp [(headOf_eq_nil_iff _).mpr h.head, homes, contents, h.committed]
      clean := fun b d hb => by simp [h.cache] at hb }
  stage := by
    simp only [StageOk, h.phase]
    exact ⟨fun b hb => by simp [Store.Dirty, h.cache] at hb, h.current⟩

/-! ### Preservation -/

variable {m₀ m m' : Machine P}

variable {p : P} {o : Op}

omit [DecidableEq P] in
theorem Inv.open_of_inOp (h : Inv m₀ m) (hrun : m.phase = .running) (hp : m.proc p = .inOp o) :
    Open m₀.store.disk m.store m.log m.current m.committed := by
  have hs := h.stage
  simp only [StageOk, hrun] at hs
  exact hs.1 (h.agrees.not_committing_of_inOp hp)

variable {pc : Commit}

section

omit [DecidableEq P]

theorem Inv.commitOk (h : Inv m₀ m) (hrun : m.phase = .running) (hp : m.proc p = .commit pc) :
    CommitOk m₀.store.disk m pc := by
  have hs := h.stage
  simp only [StageOk, hrun] at hs
  exact hs.2 p pc hp

theorem not_commit_of_committing_false (h : Agrees m) (hc : m.log.committing = false) (p : P)
    (pc : Commit) : m.proc p ≠ .commit pc := by
  intro hp
  have := h.committing.mpr ⟨p, by simp [hp, Proc.isCommit]⟩
  simp [hc] at this

end

variable {d₀ : ℕ → Block}

omit [DecidableEq P] [Fintype P] in
theorem StageOk.of_open (hrun : m.phase = .running)
    (ho : Open d₀ m.store m.log m.current m.committed) (hn : ∀ p pc, m.proc p ≠ .commit pc) :
    StageOk d₀ m := by
  simp only [StageOk, hrun]
  exact ⟨fun _ => ho, fun p pc hp => absurd hp (hn p pc)⟩

omit [DecidableEq P] in
theorem StageOk.of_commit (hrun : m.phase = .running) (ha : Agrees m) (hp : m.proc p = .commit pc)
    (hok : CommitOk d₀ m pc) : StageOk d₀ m := by
  have hpc : (m.proc p).isCommit = true := by simp [hp, Proc.isCommit]
  simp only [StageOk, hrun]
  refine ⟨fun hc => ?_, fun q pc' hq => ?_⟩
  · have := ha.committing.mpr ⟨p, hpc⟩
    simp [hc] at this
  · have hqp : q = p := ha.unique q p (by simp [hq, Proc.isCommit]) hpc
    subst hqp
    rw [hp] at hq
    cases hq
    exact hok

omit [DecidableEq P] [Fintype P] in
theorem StageOk.same {st : Store} (h : StageOk d₀ m) (hs : m.store.Same st) :
    StageOk d₀ { m with store := st } := by
  unfold StageOk at *
  cases hph : m.phase with
  | boot =>
    simp only [hph] at h ⊢
    exact ⟨fun b hb => h.1 b ((hs.dirty b).mp hb), h.2⟩
  | installTrans t | clear | recovered => simp only [hph] at h ⊢; exact h.same hs
  | running =>
    simp only [hph] at h ⊢
    refine ⟨fun hc => (h.1 hc).same hs, fun p pc hp => ?_⟩
    have hok := h.2 p pc hp
    cases pc with
    | writeLog t => exact ⟨hok.1.same hs, hok.2.1.same hs, hok.2.2⟩
    | writeHead => exact ⟨hok.1.same hs, hok.2.same hs⟩
    | installTrans t => exact Installing.same hok hs
    | clear => exact Cleared.same hok hs
    | done => exact Open.same hok hs
  | panicked => trivial

variable {e : Event P}

variable {es : List (Event P)}

section

variable (h : Inv m₀ m)

include h

theorem Inv.beginOp (hrun : m.phase = .running) (hp : m.proc p = .idle ∨ m.proc p = .woken) :
    Inv m₀ (beginOp m p) := by
  have ha := h.agrees.beginOp hrun hp
  have hs := h.stage
  simp only [StageOk, hrun] at hs
  -- process `p` is in no commit, before and after
  have hcommit {q : Proc} (hq : q.isCommit = false) {r : P} {pc : Commit}
      (hr : update m.proc p q r = .commit pc) : m.proc r = .commit pc := by
    by_cases hrp : r = p
    · subst hrp
      simp only [update_self] at hr
      simp [hr, Proc.isCommit] at hq
    · rwa [update_of_ne hrp] at hr
  unfold Logging.beginOp at ha ⊢
  split_ifs at ha ⊢ with hw
  · refine ⟨h.start, h.size, ha, h.disk, ?_⟩
    simp only [StageOk, hrun]
    exact ⟨hs.1, fun r pc hr => hs.2 r pc (hcommit rfl hr)⟩
  · have hc : m.log.committing = false := by
      simp only [mustWait, Bool.or_eq_true, not_or] at hw
      simpa using hw.1
    exact ⟨h.start, h.size, ha, h.disk.counters _ _,
      .of_open hrun ((hs.1 hc).counters _ _) (not_commit_of_committing_false ha hc)⟩

theorem Inv.logWrite {b : Word} {data : Block} (hrun : m.phase = .running) (hp : m.proc p = .inOp o)
    (hb : ¬ m.log.InArea b.toNat) : Inv m₀ (logWrite m p o b data) := by
  have ha := h.agrees.logWrite b data hrun hp
  have ho := h.open_of_inOp hrun hp
  have hc := h.agrees.not_committing_of_inOp hp
  unfold Logging.logWrite at ha ⊢
  by_cases hfull : m.log.lh.length ≥ logSize ∨ m.log.lh.length ≥ m.log.size - 1
  · rw [if_pos hfull] at ha ⊢
    exact ⟨h.start, h.size, ha, h.disk, trivial⟩
  · rw [if_neg hfull] at ha ⊢
    by_cases hout : m.log.outstanding < 1
    · rw [if_pos hout] at ha ⊢
      exact ⟨h.start, h.size, ha, h.disk, trivial⟩
    · rw [if_neg hout] at ha ⊢
      exact ⟨h.start, h.size, ha, (h.disk.pin _ _).setLh _,
        .of_open hrun (ho.pin ⟨o.id, b, data⟩ (by omega) (by omega) hb)
          (not_commit_of_committing_false ha hc)⟩

theorem Inv.endOp (hrun : m.phase = .running) (hp : m.proc p = .inOp o) : Inv m₀ (endOp m p) := by
  have ha := h.agrees.endOp hrun hp
  have ho := h.open_of_inOp hrun hp
  have hc := h.agrees.not_committing_of_inOp hp
  unfold Logging.endOp at ha ⊢
  rw [if_neg (by simp [hc])] at ha ⊢
  by_cases hlast : m.log.outstanding - 1 = 0
  · rw [if_pos hlast] at ha ⊢
    refine ⟨h.start, h.size, ha, h.disk.counters _ _, .of_commit hrun ha (update_self ..) ?_⟩
    split_ifs
    · exact ⟨ho.counters _ _, fun i hi => absurd hi (Nat.not_lt_zero i), Nat.zero_le _⟩
    · exact ho.counters _ _
  · rw [if_neg hlast] at ha ⊢
    exact ⟨h.start, h.size, ha, h.disk.counters _ m.log.committing,
      .of_open hrun (ho.counters _ m.log.committing) (not_commit_of_committing_false ha hc)⟩

theorem Inv.commitStep (hrun : m.phase = .running) (hp : m.proc p = .commit pc) :
    Inv m₀ (commitStep m p pc) := by
  have ha := h.agrees.commitStep hrun hp
  have hok := h.commitOk hrun hp
  cases pc with
  | writeLog t =>
    obtain ⟨ho, hw, ht⟩ := hok
    simp only [Logging.commitStep] at ha ⊢
    by_cases hlt : t < m.log.lh.length
    · rw [if_pos hlt] at ha ⊢
      obtain ⟨hd', ho', hw'⟩ := ho.writeLog h.disk hw hlt
      exact ⟨h.start, h.size, ha, hd', .of_commit hrun ha (update_self ..) ⟨ho', hw', hlt⟩⟩
    · rw [if_neg hlt] at ha ⊢
      have hn : t = m.log.lh.length := by omega
      exact ⟨h.start, h.size, ha, h.disk, .of_commit hrun ha (update_self ..) ⟨ho, hn ▸ hw⟩⟩
  | writeHead =>
    obtain ⟨hd', hi⟩ := hok.1.writeHead h.disk hok.2
    exact ⟨h.start, h.size, ha, hd', .of_commit hrun ha (update_self ..) hi⟩
  | installTrans t =>
    simp only [Logging.commitStep] at ha ⊢
    by_cases hlt : t < m.log.lh.length
    · rw [if_pos hlt] at ha ⊢
      obtain ⟨hd', hi'⟩ := Installing.installTrans hok h.disk hlt
      exact ⟨h.start, h.size, ha, hd', .of_commit hrun ha (update_self ..) hi'⟩
    · rw [if_neg hlt] at ha ⊢
      exact ⟨h.start, h.size, ha, h.disk.setLh _,
        .of_commit hrun ha (update_self ..) (Installing.clear hok hlt)⟩
  | clear =>
    obtain ⟨hd', ho'⟩ := Cleared.writeHead hok h.disk
    exact ⟨h.start, h.size, ha, hd', .of_commit hrun ha (update_self ..) ho'⟩
  | done =>
    exact ⟨h.start, h.size, ha, h.disk.counters m.log.outstanding _,
      .of_open hrun (Open.counters hok m.log.outstanding _)
        (not_commit_of_committing_false ha rfl)⟩

theorem Inv.recoverStep (hs : recoverStep m = some m') : Inv m₀ m' := by
  have ha := h.agrees.recoverStep hs
  have hst := h.stage
  unfold Logging.recoverStep at hs
  cases hph : m.phase with
  | boot =>
    simp only [StageOk, hph] at hst
    simp only [hph, Option.some.injEq] at hs
    subst hs
    have hsame := m.store.bread_same m.log.start
    -- no buffer is pinned after a crash, so the header read is the one on the disk
    have hview : (m.store.bread m.log.start).1 = m.store.disk m.log.start :=
      Store.view_eq_disk h.disk.clean (hst.1 _)
    refine ⟨h.start, h.size, ha, (h.disk.same hsame).setLh _, ?_⟩
    refine ⟨?_, fun i hi => absurd hi (Nat.not_lt_zero i), fun b hb => ?_, hst.2⟩
    · simp only [readHead, hsame.disk, hview]
    · exact absurd ((hsame.dirty b).mp hb) (hst.1 b)
  | installTrans t =>
    simp only [StageOk, hph] at hst
    simp only [hph] at hs
    by_cases hlt : t < m.log.lh.length
    · rw [if_pos hlt] at hs
      cases hs
      obtain ⟨hd', hi'⟩ := hst.installTrans h.disk hlt
      exact ⟨h.start, h.size, ha, hd', hi'⟩
    · rw [if_neg hlt] at hs
      cases hs
      exact ⟨h.start, h.size, ha, h.disk.setLh _, hst.clear hlt⟩
  | clear =>
    simp only [StageOk, hph] at hst
    simp only [hph, Option.some.injEq] at hs
    subst hs
    obtain ⟨hd', ho'⟩ := hst.writeHead h.disk
    exact ⟨h.start, h.size, ha, hd', ho'⟩
  | recovered =>
    simp only [StageOk, hph] at hst
    simp only [hph, Option.some.injEq] at hs
    subst hs
    have hidle := h.agrees.quiet (by simp [hph]) (by simp [hph])
    exact ⟨h.start, h.size, ha, h.disk, .of_open rfl hst fun p pc hp => by simp [hidle p] at hp⟩
  | running | panicked => simp [hph] at hs

omit [DecidableEq P] in
theorem Inv.crash : Inv m₀ (crash m) where
  start := h.start
  size := h.size
  agrees := .crash m
  disk :=
    { head := ⟨h.disk.head.length_le, h.disk.head.length_lt, h.disk.head.nodup, h.disk.head.outside⟩
      stands := h.disk.stands
      clean := fun b d hb => by simp [Logging.crash] at hb }
  stage := ⟨fun b hb => by simp [Store.Dirty, Logging.crash] at hb, rfl⟩

theorem Inv.step (hs : step m e = some m') : Inv m₀ m' := by
  cases step_inv hs with
  | beginOp p hrun hp => exact h.beginOp hrun hp
  | logWrite p o b data hrun hp hb => exact h.logWrite hrun hp hb
  | endOp p o hrun hp => exact h.endOp hrun hp
  | commit p pc hrun hp => exact h.commitStep hrun hp
  | bread b hrun =>
    have hsame := m.store.bread_same b
    exact ⟨h.start, h.size, h.agrees.congr rfl rfl rfl (.inl rfl), h.disk.same hsame,
      h.stage.same hsame⟩
  | recycle b d hb =>
    have hsame := Store.recycle_same h.disk.clean hb
    exact ⟨h.start, h.size, h.agrees.congr rfl rfl rfl (.inl rfl), h.disk.same hsame,
      h.stage.same hsame⟩
  | recover m' hs => exact h.recoverStep hs
  | crash => exact h.crash

end

theorem Inv.run (h₀ : Initial m₀) (hr : Run m₀ es m) : Inv m₀ m :=
  hr.invariant (.initial h₀) fun h _ hs => h.step hs

/-! ### Whole operations -/

/-- The updates that operation `o` contributes to a list of updates. -/
def updatesOf (o : ℕ) (us : List Update) : List Update := us.filter fun u => u.op = o

/-- Every operation has all its updates in one place: in one committed transaction, in the current
one, or lost with a transaction that was cut off by a crash. -/
structure Whole (m : Machine P) : Prop where
  issued_lt : ∀ u ∈ m.issued, u.op < m.nextOp
  id_lt : ∀ p o, m.proc p = .inOp o → o.id < m.nextOp
  committed : ∀ t ∈ m.committed, ∀ o, updatesOf o t = [] ∨
    (updatesOf o t = updatesOf o m.issued ∧ ∀ p op, m.proc p = .inOp op → op.id ≠ o)
  inOp : ∀ p o, m.proc p = .inOp o → updatesOf o.id m.current = updatesOf o.id m.issued
  current : ∀ o, updatesOf o m.current = [] ∨ updatesOf o m.current = updatesOf o m.issued

@[simp] theorem updatesOf_append (o : ℕ) (us vs : List Update) :
    updatesOf o (us ++ vs) = updatesOf o us ++ updatesOf o vs :=
  List.filter_append ..

theorem updatesOf_eq_nil {o : ℕ} {us : List Update} (h : ∀ u ∈ us, u.op ≠ o) :
    updatesOf o us = [] := by
  simpa [updatesOf] using h

section

omit [DecidableEq P] [Fintype P]

theorem Whole.initial (h : Initial m) : Whole m where
  issued_lt := by simp [h.issued]
  id_lt p o hp := by simp [h.proc] at hp
  committed := by simp [h.committed]
  inOp p o hp := by simp [h.proc] at hp
  current o := .inl (by simp [h.current, updatesOf])

theorem Whole.congr (h : Whole m) (hi : m'.issued = m.issued) (hn : m'.nextOp = m.nextOp)
    (hc : m'.committed = m.committed) (hcur : m'.current = m.current)
    (hp : ∀ p o, m'.proc p = .inOp o → m.proc p = .inOp o) : Whole m' where
  issued_lt := by rw [hi, hn]; exact h.issued_lt
  id_lt p o ho := by rw [hn]; exact h.id_lt p o (hp p o ho)
  committed t ht o := by
    rw [hi]
    exact (h.committed t (hc ▸ ht) o).imp_right fun ho =>
      ⟨ho.1, fun p op hop => ho.2 p op (hp _ _ hop)⟩
  inOp p o ho := by rw [hcur, hi]; exact h.inOp p o (hp p o ho)
  current o := by rw [hcur, hi]; exact h.current o

end

theorem Whole.beginOp (h : Whole m) (p : P) : Whole (beginOp m p) := by
  unfold Logging.beginOp
  split_ifs
  · refine h.congr rfl rfl rfl rfl fun q o hq => ?_
    by_cases hqp : q = p
    · subst hqp; simp at hq
    · simpa [hqp] using hq
  · -- the number of the new operation occurs in no update yet
    have hnew (q : P) (o : Op) (hq : update m.proc p (.inOp ⟨m.nextOp, ∅, 0⟩) q = .inOp o) :
        o.id = m.nextOp ∨ m.proc q = .inOp o := by
      by_cases hqp : q = p
      · subst hqp
        simp only [update_self, Proc.inOp.injEq] at hq
        exact .inl (by rw [← hq])
      · exact .inr (by simpa [hqp] using hq)
    have hnil : updatesOf m.nextOp m.issued = [] :=
      updatesOf_eq_nil fun u hu => (h.issued_lt u hu).ne
    refine ⟨fun u hu => Nat.lt_succ_of_lt (h.issued_lt u hu), fun q o hq => ?_, fun t ht o => ?_,
      fun q o hq => ?_, h.current⟩
    · rcases hnew q o hq with ho | ho
      · simp [ho]
      · exact Nat.lt_succ_of_lt (h.id_lt q o ho)
    · rcases h.committed t ht o with hempty | ⟨heq, hact⟩
      · exact .inl hempty
      · by_cases ho : o = m.nextOp
        · exact .inl (by rw [heq, ho, hnil])
        · refine .inr ⟨heq, fun q op hq hop => ?_⟩
          rcases hnew q op hq with hid | hid
          · exact ho (hop ▸ hid)
          · exact hact q op hid hop
    · rcases hnew q o hq with ho | ho
      · rw [ho, hnil]
        rcases h.current m.nextOp with hc | hc
        · exact hc
        · exact hc.trans hnil
      · exact h.inOp q o ho

theorem Whole.logWrite (h : Whole m) (b : Word) (data : Block) (hp : m.proc p = .inOp o) :
    Whole (logWrite m p o b data) := by
  unfold Logging.logWrite
  by_cases hfull : m.log.lh.length ≥ logSize ∨ m.log.lh.length ≥ m.log.size - 1
  · rw [if_pos hfull]
    exact h.congr rfl rfl rfl rfl fun _ _ hq => hq
  by_cases hout : m.log.outstanding < 1
  · rw [if_neg hfull, if_pos hout]
    exact h.congr rfl rfl rfl rfl fun _ _ hq => hq
  rw [if_neg hfull, if_neg hout]
  -- the update is appended to both lists, and `p` stays in the same operation
  have hid {o' : Op} {q : P} {op : Op}
      (hq : update m.proc p (.inOp o') q = .inOp op) (ho' : o'.id = o.id) :
      ∃ op', m.proc q = .inOp op' ∧ op'.id = op.id := by
    by_cases hqp : q = p
    · subst hqp
      simp only [update_self, Proc.inOp.injEq] at hq
      exact ⟨o, hp, by rw [← hq, ho']⟩
    · exact ⟨op, by simpa [hqp] using hq, rfl⟩
  refine ⟨fun u hu => ?_, fun q op hq => ?_, fun t ht o' => ?_, fun q op hq => ?_, fun o' => ?_⟩
  · rcases List.mem_append.mp hu with hu | hu
    · exact h.issued_lt u hu
    · rw [List.mem_singleton.mp hu]
      exact h.id_lt p o hp
  · obtain ⟨op', hop', he⟩ := hid hq rfl
    exact he ▸ h.id_lt q op' hop'
  · rcases h.committed t ht o' with hempty | ⟨heq, hact⟩
    · exact .inl hempty
    · refine .inr ⟨?_, fun q op hq hop => ?_⟩
      · have hne : o.id ≠ o' := hact p o hp
        have hnew : updatesOf o' [⟨o.id, b, data⟩] = [] := updatesOf_eq_nil (by simpa using hne)
        rw [heq, updatesOf_append, hnew, List.append_nil]
      · obtain ⟨op', hop', he⟩ := hid hq rfl
        exact hact q op' hop' (he.trans hop)
  · obtain ⟨op', hop', he⟩ := hid hq rfl
    rw [updatesOf_append, updatesOf_append, ← he, h.inOp q op' hop']
  · by_cases ho' : o' = o.id
    · right
      rw [updatesOf_append, updatesOf_append, ho', h.inOp p o hp]
    · have hnil : updatesOf o' [⟨o.id, b, data⟩] = [] :=
        updatesOf_eq_nil (by simpa using Ne.symm ho')
      rw [updatesOf_append, updatesOf_append, hnil, List.append_nil, List.append_nil]
      exact h.current o'

variable {proc : P → Proc}

omit [DecidableEq P] [Fintype P] in
theorem inOp_of_wakeup (h : wakeup proc p = .inOp o) : proc p = .inOp o := by
  unfold wakeup at h
  split at h
  · cases h
  · exact h

omit [Fintype P] in
theorem inOp_of_update {q : P} {r : Proc} (hr : r.isInOp = false)
    (h : update proc p r q = .inOp o) : proc q = .inOp o := by
  by_cases hqp : q = p
  · subst hqp
    simp only [update_self] at h
    simp [h, Proc.isInOp] at hr
  · rwa [update_of_ne hqp] at h

theorem Whole.endOp (h : Whole m) (p : P) : Whole (endOp m p) := by
  unfold Logging.endOp
  by_cases hc : m.log.committing = true
  · rw [if_pos hc]
    exact h.congr rfl rfl rfl rfl fun _ _ hq => hq
  by_cases hlast : m.log.outstanding - 1 = 0
  · rw [if_neg hc, if_pos hlast]
    exact h.congr rfl rfl rfl rfl fun q o hq => inOp_of_update rfl hq
  · rw [if_neg hc, if_neg hlast]
    exact h.congr rfl rfl rfl rfl fun q o hq => inOp_of_update rfl (inOp_of_wakeup hq)

theorem Whole.commitStep (h : Whole m) (ha : Agrees m) (hp : m.proc p = .commit pc) :
    Whole (commitStep m p pc) := by
  cases pc with
  | writeLog t =>
    simp only [Logging.commitStep]
    split_ifs <;> exact h.congr rfl rfl rfl rfl fun q o hq => inOp_of_update rfl hq
  | writeHead =>
    -- no process is inside an operation, so the operations of the transaction are complete
    have hno (q : P) (o : Op) : m.proc q ≠ .inOp o := by
      intro hq
      have hmem : q ∈ active m.proc := by simp [hq, Proc.isInOp]
      rw [ha.exclusive (ha.committing.mpr ⟨p, by simp [hp, Proc.isCommit]⟩)] at hmem
      simp at hmem
    have hno' (q : P) (o : Op) : update m.proc p (.commit (.installTrans 0)) q ≠ .inOp o :=
      fun hq => hno q o (inOp_of_update rfl hq)
    refine ⟨h.issued_lt, fun q o hq => absurd hq (hno' q o), fun t ht o => ?_,
      fun q o hq => absurd hq (hno' q o), fun o => .inl rfl⟩
    rcases List.mem_append.mp ht with ht | ht
    · exact (h.committed t ht o).imp_right fun ho => ⟨ho.1, fun q op hq => absurd hq (hno' q op)⟩
    · rw [List.mem_singleton.mp ht]
      exact (h.current o).imp_right fun ho => ⟨ho, fun q op hq => absurd hq (hno' q op)⟩
  | installTrans t =>
    simp only [Logging.commitStep]
    split_ifs <;> exact h.congr rfl rfl rfl rfl fun q o hq => inOp_of_update rfl hq
  | clear => exact h.congr rfl rfl rfl rfl fun q o hq => inOp_of_update rfl hq
  | done => exact h.congr rfl rfl rfl rfl fun q o hq => inOp_of_update rfl (inOp_of_wakeup hq)

theorem Whole.recoverStep (h : Whole m) (hs : recoverStep m = some m') : Whole m' := by
  unfold Logging.recoverStep at hs
  cases hph : m.phase <;> simp only [hph] at hs
  case installTrans t =>
    split_ifs at hs <;> cases hs <;> exact h.congr rfl rfl rfl rfl fun _ _ hq => hq
  case running => cases hs
  case panicked => cases hs
  all_goals
    cases hs
    exact h.congr rfl rfl rfl rfl fun _ _ hq => hq

omit [DecidableEq P] [Fintype P] in
theorem Whole.crash (h : Whole m) : Whole (crash m) where
  issued_lt := h.issued_lt
  id_lt p o hp := by simp [Logging.crash] at hp
  committed t ht o :=
    (h.committed t ht o).imp_right fun ho => ⟨ho.1, fun p op hp => by simp [Logging.crash] at hp⟩
  inOp p o hp := by simp [Logging.crash] at hp
  current o := .inl rfl

/-- A step moves the updates of an operation together. -/
theorem Whole.step (h : Whole m) (ha : Agrees m) (hs : step m e = some m') : Whole m' := by
  cases step_inv hs with
  | beginOp p hrun hp => exact h.beginOp p
  | logWrite p o b data hrun hp hb => exact h.logWrite b data hp
  | endOp p o hrun hp => exact h.endOp p
  | commit p pc hrun hp => exact h.commitStep ha hp
  | bread b hrun | recycle b d hb => exact h.congr rfl rfl rfl rfl fun _ _ hq => hq
  | recover m' hs => exact h.recoverStep hs
  | crash => exact h.crash

theorem Whole.run (h₀ : Initial m₀) (hr : Run m₀ es m) : Whole m := by
  induction hr with
  | nil => exact .initial h₀
  | snoc e hr _ hs ih => exact ih.step (Inv.run h₀ hr).agrees hs

/-! ### The committed transactions of a run -/

section

omit [Fintype P]

theorem foldlM_step_of_run (hr : Run m₀ es m) : es.foldlM step m₀ = some m := by
  induction hr with
  | nil => rfl
  | snoc e _ _ hs ih => simp [List.foldlM_append, ih, hs]

theorem committed_of_step (hs : step m e = some m') :
    m'.committed = m.committed ++ headWrite m e := by
  cases step_inv hs with
  | beginOp p hrun hp => simp only [beginOp, headWrite]; split_ifs <;> simp
  | logWrite p o b data hrun hp hb => simp only [logWrite, headWrite]; split_ifs <;> simp
  | endOp p o hrun hp => simp only [endOp, headWrite]; split_ifs <;> simp
  | commit p pc hrun hp =>
    cases pc with
    | writeLog t => simp only [commitStep, headWrite, hp]; split_ifs <;> simp
    | writeHead => simp only [commitStep, headWrite, hp]
    | installTrans t => simp only [commitStep, headWrite, hp]; split_ifs <;> simp
    | clear | done => simp [commitStep, headWrite, hp]
  | bread b hrun | recycle b d hb => simp [headWrite]
  | recover m' hs =>
    simp only [headWrite, List.append_nil]
    simp only [recoverStep] at hs
    cases hph : m.phase <;> simp only [hph] at hs
    case installTrans t => split_ifs at hs <;> cases hs <;> rfl
    case running => cases hs
    case panicked => cases hs
    all_goals
      cases hs
      rfl
  | crash => simp [crash, headWrite]

theorem headWrites_concat (h : es.foldlM step m₀ = some m) (hs : step m e = some m') :
    headWrites m₀ (es ++ [e]) = headWrites m₀ es ++ headWrite m e := by
  induction es generalizing m₀ with
  | nil =>
    cases h
    simp [headWrites, hs]
  | cons a es ih =>
    rw [List.foldlM_cons] at h
    obtain ⟨m₁, hm₁, h⟩ := Option.bind_eq_some_iff.mp h
    simp only [List.cons_append, headWrites, hm₁, ih h, List.append_assoc]

end

/-- The committed transactions recorded in the state are those whose first `write_head` reached
the disk. -/
theorem committed_eq_headWrites (h₀ : Initial m₀) (hr : Run m₀ es m) :
    m.committed = headWrites m₀ es := by
  induction hr with
  | nil => exact h₀.committed
  | snoc e hr _ hs ih =>
    rw [committed_of_step hs, ih, headWrites_concat (foldlM_step_of_run hr) hs]

/-! ### The main result -/

/-- **Crash atomicity.** Take any run of the machine from a fresh disk, with crashes at any point,
that ends when `recover_from_log` has completed. Outside the log area the disk holds the contents
after the transactions whose first `write_head` reached the disk, in order and no others; each of
them holds all or none of the updates of each operation; and the header on the disk has
`n = 0`. -/
theorem recovered_contents {es : List (Event P)} (h₀ : Initial m₀) (hr : Run m₀ es m)
    (hph : m.phase = .recovered) :
    (∀ b, ¬ m₀.log.InArea b →
      m.store.disk b = contents (headWrites m₀ es) m₀.store.disk b) ∧
    (∀ t ∈ headWrites m₀ es, ∀ o, updatesOf o t = [] ∨ updatesOf o t = updatesOf o m.issued) ∧
    (m.store.disk m₀.log.start).word 0 = 0 := by
  have hinv := Inv.run h₀ hr
  have hwhole := Whole.run h₀ hr
  have hcom := committed_eq_headWrites h₀ hr
  have hopen : Open m₀.store.disk m.store m.log m.current m.committed := by
    have hs := hinv.stage
    simpa only [StageOk, hph] using hs
  refine ⟨fun b hb => ?_, fun t ht o => ?_, ?_⟩
  · have harea : ¬ m.log.InArea b := by
      simpa only [Log.InArea, hinv.start, hinv.size] using hb
    have hstands := hinv.disk.stands b harea
    rwa [hopen.head, homes, List.map_nil, replay_nil, hcom] at hstands
  · exact (hwhole.committed t (hcom ▸ ht) o).imp_right And.left
  · rw [← hinv.start]
    exact (headOf_eq_nil_iff _).mp hopen.head

/-- A machine whose log area is the blocks from 2 to 32 of a zero disk. -/
def demo : Machine P where
  store := ⟨fun _ => 0, fun _ => none⟩
  log := ⟨2, 31, 0, false, []⟩
  phase := .boot
  proc := fun _ => .idle
  nextOp := 0
  current := []
  issued := []
  committed := []

omit [DecidableEq P] [Fintype P] in
theorem demo_initial : Initial (demo : Machine P) :=
  ⟨Block.word_zero 0, rfl, rfl, rfl, rfl, rfl, rfl, Nat.succ_pos 30, rfl, rfl, rfl⟩

/-- The first boot, one operation that writes block 40, a crash right after the commit point, and
the recovery. -/
def demoEvents : List (Event Unit) :=
  [.recover, .recover, .recover, .recover, .beginOp (), .logWrite () 40 7, .endOp (), .commit (),
    .commit (), .commit (), .crash, .recover, .recover, .recover, .recover]

/-- A crash between the commit point and the copy home loses nothing: the recovery installs the
block. -/
theorem recovered_contents_demo :
    ∃ m, Run demo demoEvents m ∧ m.phase = .recovered ∧ m.store.disk 40 = 7 := by
  have hexec : (demoEvents.foldlM (guarded step anyEvent) demo).map Machine.phase =
      some .recovered := by
    decide +kernel
  obtain ⟨m, hm, hph⟩ := Option.map_eq_some_iff.mp hexec
  have hrun := Dave.Run.of_foldlM hm
  refine ⟨m, hrun, hph, ?_⟩
  rw [(recovered_contents demo_initial hrun hph).1 40 (by decide)]
  decide +kernel

end Dave.Logging
