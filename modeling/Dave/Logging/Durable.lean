import Dave.Logging.Reservation

/-!
# Durability

`end_op` of the last outstanding operation commits before it returns. So a crash at a moment when no
operation is outstanding and no commit is going on loses nothing that a process could have read.

## Main results

* `Inv.recovers`: crashes and recoveries commit nothing.
* After any crashes and recoveries every block has what was read in it before.
-/

namespace Dave.Logging

variable {P : Type} [DecidableEq P] [Fintype P] {m₀ m m' : Machine P} {es : List (Event P)}

/-- The machine only crashes and recovers. -/
def OnlyRecovers (es : List (Event P)) : Prop := ∀ e ∈ es, e = .crash ∨ e = .recover

theorem Inv.recovers (h : Inv m₀ m) (hr : Run m es m') (hes : OnlyRecovers es) :
    Inv m₀ m' ∧ m'.committed = m.committed := by
  induction hr with
  | nil => exact ⟨h, rfl⟩
  | snoc e _ _ hs ih =>
    obtain ⟨hinv, hcom⟩ := ih fun e he => hes e (List.mem_append_left _ he)
    have hwrite (n : Machine P) : headWrite n e = [] := by
      rcases hes e (by simp) with rfl | rfl <;> rfl
    exact ⟨hinv.step hs, by rw [committed_of_step hs, hwrite, List.append_nil, hcom]⟩

/-- **Durability.** Take a state in which processes run, no operation is outstanding and no commit
is going on. After any crashes and recoveries, the last of which completes, each block outside the
log area has on the disk what a process would have read in it before. -/
theorem quiet_durable (h₀ : Initial m₀) (hr : FrugalRun m₀ es m) (hrun : m.phase = .running)
    (hout : m.log.outstanding = 0) (hc : m.log.committing = false) {es' : List (Event P)}
    (hes : OnlyRecovers es') (hr' : Run m es' m') (hph : m'.phase = .recovered) (b : ℕ)
    (hb : ¬ m₀.log.InArea b) : m'.store.disk b = m.store.view b := by
  have hinv := Inv.run h₀ hr.run
  obtain ⟨hinv', hcom⟩ := hinv.recovers hr' hes
  have harea {n : Machine P} (h : Inv m₀ n) : ¬ n.log.InArea b := by
    simpa only [Log.InArea, h.start, h.size] using hb
  have hopen : Open m₀.store.disk m.store m.log m.current m.committed := by
    have hs := hinv.stage
    simp only [StageOk, hrun] at hs
    exact hs.1 hc
  have hopen' : Open m₀.store.disk m'.store m'.log m'.current m'.committed := by
    simpa only [StageOk, hph] using hinv'.stage
  -- the log is empty, so no update is waiting for a commit
  have hempty : m.log.lh = [] := (Reserved.run h₀ hr).empty (by simp [hrun]) hout hc
  have hcurrent : m.current = [] := by
    refine List.eq_nil_iff_forall_not_mem.mpr fun u hu => ?_
    simpa [hempty] using hopen.mem u hu
  have hstands := hinv'.disk.stands b (harea hinv')
  rw [hopen'.head, homes, List.map_nil, RedoLog.replay_nil, hcom] at hstands
  rw [hstands, hopen.view b (harea hinv), hcurrent, List.map_nil, RedoLog.writes_nil]

/-- The first boot, and an operation that writes block 40. -/
def bootAndWrite : List (Event Unit) :=
  [.recover, .recover, .recover, .recover, .beginOp (), .logWrite () 40 7, .endOp (), .commit (),
    .commit (), .commit (), .commit (), .commit (), .commit (), .commit ()]

/-- There is a crash after the operation, and another one in the recovery. -/
theorem quiet_durable_demo : ∃ m m', FrugalRun demo bootAndWrite m ∧
    Run m [.crash, .recover, .crash, .recover, .recover, .recover] m' ∧
    m'.store.disk 40 = m.store.view 40 ∧ m.store.view 40 = 7 := by
  have hexec : (bootAndWrite.foldlM (guarded step Frugal) demo).any (fun m => m.phase = .running &&
      m.log.outstanding = 0 && m.log.committing = false && m.store.view 40 = 7 &&
        ([.crash, .recover, .crash, .recover, .recover, .recover].foldlM
          (guarded step anyEvent) m).any fun m' => m'.phase = .recovered) = true := by
    decide +kernel
  obtain ⟨m, hm, hcheck⟩ := (Option.any_eq_true _ _).mp hexec
  simp only [Bool.and_eq_true, decide_eq_true_eq] at hcheck
  obtain ⟨⟨⟨⟨hrun, hout⟩, hc⟩, hview⟩, hrec⟩ := hcheck
  obtain ⟨m', hm', hph⟩ := (Option.any_eq_true _ _).mp hrec
  have hr := Dave.Run.of_foldlM hm
  have hr' := Dave.Run.of_foldlM hm'
  exact ⟨m, m', hr, hr', quiet_durable demo_initial hr hrun hout hc (by simp [OnlyRecovers]) hr'
    (of_decide_eq_true hph) 40 (by decide), hview⟩

end Dave.Logging
