import Dave.Logging.Reservation

/-!
# The size test of `log_write`

`log_write` panics with "too big a transaction" when the header is full, and it makes this test
before it looks for the block among the entries of the header. Three operations that log
`MAXOPBLOCKS` different blocks each fill the header, as their reservations allow; when one of them
then logs one of its own blocks again, no new entry is needed and yet the test fails
(`log_write_again_panics`).

This is the only way to reach the panic. A header that is full has no reservation left
(`Reserved.blocks_card_of_full`), so an operation that keeps to `MAXOPBLOCKS` blocks can only log a
block it has logged before.
-/

namespace Dave.Logging

variable {P : Type} [DecidableEq P] [Fintype P]

/-! ### The test -/

/-- The test with which `log_write` panics. -/
def TooBig (l : Log) : Prop := l.lh.length ≥ logSize ∨ l.lh.length ≥ l.size - 1

/-- The event does not log a block again for its operation while the header is full. -/
def Spare (m : Machine P) : Event P → Prop
  | .logWrite p b _ => m.log.lh.length = logSize → b ∉ (m.proc p).blocks
  | _ => True

instance (m : Machine P) (e : Event P) : Decidable (Spare m e) :=
  match e with
  | .logWrite p b _ =>
    inferInstanceAs (Decidable (m.log.lh.length = logSize → b ∉ (m.proc p).blocks))
  | .beginOp _ | .endOp _ | .commit _ | .bread _ | .recycle _ | .recover | .crash =>
    inferInstanceAs (Decidable True)

/-- A run in which each operation logs at most `MAXOPBLOCKS` distinct blocks, and none of them again
while the header is full. -/
abbrev SpareRun : Machine P → List (Event P) → Machine P → Prop :=
  Dave.Run step fun m e => Frugal m e ∧ Spare m e

variable {m₀ m m' : Machine P}

omit [Fintype P] in
theorem SpareRun.frugal {es : List (Event P)} (h : SpareRun m₀ es m) : FrugalRun m₀ es m :=
  h.mono fun _ _ hok => hok.1

/-! ### A full header -/

theorem Reserved.blocks_card_of_full (h : Reserved m) (hfull : m.log.lh.length = logSize) {p : P}
    {o : Op} (hp : m.proc p = .inOp o) : o.blocks.card = maxOpBlocks := by
  obtain ⟨happ, hcard, -⟩ := h.blocks p o hp
  have hfits := h.fits
  rw [pending_eq_add_erase hp] at hfits
  omega

theorem Reserved.not_tooBig (h : Reserved m) (hsize : logSize + 1 ≤ m.log.size) {p : P} {o : Op}
    {b : Word} (hp : m.proc p = .inOp o) (hf : (insert b o.blocks).card ≤ maxOpBlocks)
    (hsp : m.log.lh.length = logSize → b ∉ o.blocks) : ¬ TooBig m.log := by
  have hle : m.log.lh.length ≤ logSize := (Nat.le_add_right _ _).trans h.fits
  have hne : m.log.lh.length ≠ logSize := by
    intro hfull
    -- a block that is new for the operation would exceed its reservation
    rw [Finset.card_insert_of_notMem (hsp hfull), h.blocks_card_of_full hfull hp] at hf
    exact Nat.not_succ_le_self _ hf
  rintro (hbig | hbig)
  · exact hne (hle.antisymm hbig)
  · omega

/-! ### Runs without a panic -/

omit [Fintype P] in
theorem commitStep_phase (m : Machine P) (p : P) (pc : Commit) :
    (commitStep m p pc).phase = m.phase := by
  cases pc <;> simp only [commitStep] <;> split_ifs <;> rfl

omit [DecidableEq P] [Fintype P] in
theorem recoverStep_not_panicked (hs : recoverStep m = some m') : m'.phase ≠ .panicked := by
  unfold recoverStep at hs
  split at hs
  case h_2 => split_ifs at hs <;> cases hs <;> simp
  case h_5 | h_6 => cases hs
  all_goals cases hs; simp

theorem not_panicked_step {e : Event P} (h : Reserved m) (ha : Agrees m)
    (hsize : logSize + 1 ≤ m.log.size) (hf : Frugal m e) (hsp : Spare m e)
    (hph : m.phase ≠ .panicked) (hs : step m e = some m') : m'.phase ≠ .panicked := by
  cases step_inv hs with
  | beginOp p =>
    unfold beginOp
    split_ifs <;> exact hph
  | logWrite p o b data hrun hp hb =>
    have hroom : ¬ TooBig m.log :=
      h.not_tooBig hsize hp (by simpa [Frugal, Proc.blocks, hp] using hf)
        (by simpa [Spare, Proc.blocks, hp] using hsp)
    have hout : ¬ m.log.outstanding < 1 := by
      have hmem : p ∈ active m.proc := by simp [hp, Proc.isInOp]
      have hpos := Finset.card_pos.mpr ⟨p, hmem⟩
      rw [← ha.outstanding] at hpos
      omega
    unfold TooBig at hroom
    unfold logWrite
    rw [if_neg hroom, if_neg hout]
    exact hph
  | endOp p o hrun hp =>
    unfold endOp
    rw [if_neg (by simp [ha.not_committing_of_inOp hp])]
    split_ifs <;> exact hph
  | commit p pc =>
    rw [commitStep_phase]
    exact hph
  | bread | recycle => exact hph
  | recover _ hs => exact recoverStep_not_panicked hs
  | crash => simp [crash]

/-- **A well-behaved operation does not fill the log.** Take any run, of any number of processes and
with crashes, over a log area of at least `LOGSIZE + 1` blocks. If no operation logs more than
`MAXOPBLOCKS` distinct blocks, and none logs one of its blocks again while the header holds
`LOGSIZE` entries, then the size test of `log_write` passes in every state of the run, and no
panic is ever reached. -/
theorem log_write_never_too_big {es : List (Event P)} (h₀ : Initial m₀)
    (hsize : logSize + 1 ≤ m₀.log.size) (hr : SpareRun m₀ es m) :
    (∀ p o b, m.proc p = .inOp o → (insert b o.blocks).card ≤ maxOpBlocks →
      (m.log.lh.length = logSize → b ∉ o.blocks) → ¬ TooBig m.log) ∧
    m.phase ≠ .panicked := by
  refine ⟨fun p o b hp hf hsp => ?_, ?_⟩
  · refine (Reserved.run h₀ hr.frugal).not_tooBig ?_ hp hf hsp
    rwa [(Inv.run h₀ hr.frugal.run).size]
  · induction hr with
    | nil => simp [h₀.phase]
    | snoc e hr hok hs ih =>
      have hfrugal := SpareRun.frugal hr
      have hi := Inv.run h₀ hfrugal.run
      exact not_panicked_step (Reserved.run h₀ hfrugal) hi.agrees (hi.size ▸ hsize) hok.1 hok.2 ih
        hs

/-- One operation logs the same block twice: the second `log_write` finds the entry of the first. -/
theorem log_write_never_too_big_twice : ∃ m : Machine Unit,
    SpareRun demo [.recover, .recover, .recover, .recover, .beginOp (), .logWrite () 40 7,
      .logWrite () 40 8] m ∧ m.phase ≠ .panicked := by
  have hexec : (List.foldlM (guarded step fun m e => Frugal m e ∧ Spare m e) (demo : Machine Unit)
      [.recover, .recover, .recover, .recover, .beginOp (), .logWrite () 40 7,
        .logWrite () 40 8]).isSome := by
    decide +kernel
  obtain ⟨m, hm⟩ := Option.isSome_iff_exists.mp hexec
  have hrun := Dave.Run.of_foldlM hm
  exact ⟨m, hrun, (log_write_never_too_big demo_initial (by decide) hrun).2⟩

/-- Three operations with ten blocks each, and then the first block of the first operation again. -/
def fullThenAgain : List (Event (Fin 3)) :=
  [.recover, .recover, .recover, .recover, .beginOp 0, .beginOp 1, .beginOp 2] ++
    (List.finRange 3).flatMap (fun p =>
      (List.range maxOpBlocks).map fun i =>
        .logWrite p (BitVec.ofNat 32 (40 + maxOpBlocks * p.val + i)) 0) ++
    [.logWrite 0 40 0]

/-- Three operations that keep to `MAXOPBLOCKS` distinct blocks each, over a log area of
`LOGSIZE + 1` blocks, reach the panic of `log_write`. -/
theorem log_write_again_panics : Initial (demo : Machine (Fin 3)) ∧
    logSize + 1 ≤ (demo : Machine (Fin 3)).log.size ∧
    ∃ m, FrugalRun demo fullThenAgain m ∧ m.phase = .panicked := by
  refine ⟨demo_initial, by decide, ?_⟩
  have hexec : (fullThenAgain.foldlM (guarded step Frugal) demo).map Machine.phase =
      some .panicked := by
    decide +kernel
  obtain ⟨m, hm, hph⟩ := Option.map_eq_some_iff.mp hexec
  exact ⟨m, Dave.Run.of_foldlM hm, hph⟩

end Dave.Logging
