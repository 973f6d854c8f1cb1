import Dave.Fs.Image
import Mathlib.Algebra.BigOperators.Group.Finset.Piecewise

/-!
# References and locks balance

After any calls, run one at a time and whatever they return, no inode is locked, the reference count
of every entry of the inode cache is the number of open files and current directories that refer to
it, and no inode is in the cache twice.
-/

namespace Dave.Fs

variable {P : Type} [Fintype P] {s s' : State P}

/-- No inode is locked, every reference to an inode is that of an open file or a current directory,
and no inode is in the inode cache twice. -/
structure Balanced (s : State P) : Prop where
  unlocked : ∀ ip, (s.icache ip).lock = none
  refs : ∀ ip, (s.icache ip).ref = (Finset.univ.filter fun f =>
      (s.ftable f).type = .inode ∧ 0 < (s.ftable f).ref ∧ (s.ftable f).ip = ip).card +
    (Finset.univ.filter fun p => (s.proc p).cwd = some ip).card
  unique : ∀ ip jp, 0 < (s.icache ip).ref → 0 < (s.icache jp).ref →
    (s.icache ip).dev = (s.icache jp).dev → (s.icache ip).inum = (s.icache jp).inum → ip = jp

theorem TableOk.card_files {own : P → Proc} {loc : Slot → ℕ} (h : TableOk s own loc) (ip : Slot) :
    fileRefs s.ftable ip = (Finset.univ.filter fun f =>
      (s.ftable f).type = .inode ∧ 0 < (s.ftable f).ref ∧ (s.ftable f).ip = ip).card := by
  rw [fileRefs, Finset.card_filter]
  refine Finset.sum_congr rfl fun f _ => ?_
  have hiff : (s.ftable f).type = .inode ∧ (s.ftable f).ip = ip ↔
      (s.ftable f).type = .inode ∧ 0 < (s.ftable f).ref ∧ (s.ftable f).ip = ip := by
    refine and_congr_right fun ht => (and_iff_right_of_imp fun _ => ?_).symm
    refine Nat.pos_of_ne_zero fun hzero => ?_
    rw [h.none_of_zero f hzero] at ht
    cases ht
  simp only [hiff]

theorem Resting.balanced (h : Resting s) : Balanced s where
  unlocked := h.unlocked
  refs ip := by
    have hcwd : cwdRefs s.proc ip =
        (Finset.univ.filter fun p => (s.proc p).cwd = some ip).card := by
      rw [cwdRefs, Finset.card_filter]
    rw [h.table.refs ip, h.table.card_files, hcwd, Nat.add_zero, Nat.add_comm]
  unique ip jp hi hj _ hinum := h.store.cache.unique ip jp hi hj hinum

variable [DecidableEq P]

/-- References and locks balance after any calls that return, run one at a time. -/
theorem calls_balanced (h : Resting s) {cs : List (P × Call P)} {rs : List ℤ}
    (hrun : runCalls s cs = some (rs, s')) : Balanced s' :=
  (h.runCalls hrun).balanced

/-- The calls make a directory, work in it and fail in several ways. -/
theorem calls_balanced_image :
    ∃ s', runCalls image
      [(0, .mkdir (some [97])), (0, .chdir (some [97])), (0, .open (some [98]) 0x202),
        (1, .open (some [97, 47, 98]) 0), (0, .link (some [98]) (some [99])),
        (0, .link (some [98]) (some [99])), (1, .unlink (some [97])), (0, .unlink (some [98])),
        (0, .close 0), (1, .mkdir (some [97])), (1, .exit)] =
      some ([0, 0, 0, 0, 0, -1, -1, 0, 0, -1, 0], s') ∧ Balanced s' := by
  have hreturn : (runCalls image
      [(0, .mkdir (some [97])), (0, .chdir (some [97])), (0, .open (some [98]) 0x202),
        (1, .open (some [97, 47, 98]) 0), (0, .link (some [98]) (some [99])),
        (0, .link (some [98]) (some [99])), (1, .unlink (some [97])), (0, .unlink (some [98])),
        (0, .close 0), (1, .mkdir (some [97])), (1, .exit)]).map Prod.fst =
      some [0, 0, 0, 0, 0, -1, -1, 0, 0, -1, 0] := by
    decide +kernel
  obtain ⟨⟨_, s'⟩, hrun, rfl⟩ := Option.map_eq_some_iff.mp hreturn
  exact ⟨s', hrun, calls_balanced resting_image hrun⟩

/-- References and locks balance, and the disk and the tables are in order, whenever no process is
in a call, however the calls before were interleaved. -/
theorem interleaved_balanced {m₀ m : KernelSys P} (h : Reached (fun _ _ => True) m₀ m)
    (hidle : ∀ p, m.thread p = none) : Resting m.shared ∧ Balanced m.shared := by
  obtain ⟨gs, hbase, hgs⟩ := h.base
  obtain rfl : gs = fun _ => .idle := funext fun p => hgs p (hidle p)
  exact ⟨hbase.resting, hbase.resting.balanced⟩

/-- A process opens a new file while another one unlinks it. -/
theorem interleaved_balanced_image : ∃ m, Reached (fun _ _ => True) imageSys m ∧
    (m.returned 0 = [0] ∧ m.returned 1 = [0]) ∧ Balanced m.shared := by
  have hplay : (play (fun _ _ => true) imageSys [.call 0 (.open (some [97]) 0x202), .steps 0 4,
      .call 1 (.unlink (some [97])), .steps 1 2, .steps 0 20, .steps 1 20]).any (fun m =>
        m.returned 0 = [0] && m.returned 1 = [0] &&
          (m.thread 0).isNone && (m.thread 1).isNone) = true := by
    decide +kernel
  obtain ⟨m, hm, hcheck⟩ := (Option.any_eq_true _ _).mp hplay
  simp only [Bool.and_eq_true, decide_eq_true_eq, Option.isNone_iff_eq_none] at hcheck
  obtain ⟨⟨hreturned, h0⟩, h1⟩ := hcheck
  have hreach : Reached (fun _ _ => True) imageSys m := by simpa using reached_of_play hm
  exact ⟨m, hreach, hreturned, (interleaved_balanced hreach (Fin.forall_fin_two.mpr ⟨h0, h1⟩)).2⟩

end Dave.Fs
