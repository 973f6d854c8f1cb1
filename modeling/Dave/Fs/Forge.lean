import Dave.Fs.Image

/-!
# Directories cannot be forged

No file that is open for writing is a directory, so the entries of a directory change only when
`dirlink` stores one and when `sys_unlink` erases one. A directory therefore keeps its entries `.`
and `..`, once `create` has made them in a directory that is empty.

A directory need not be empty when `create` locks it: it may have the number of a directory that has
been unlinked, and a process whose current directory was in that one still finds it as `..`. The
condition on the steps below excludes this, and the last theorem shows that it is needed.
-/

namespace Dave.Fs

open Interleave

variable {P : Type} [Fintype P] [DecidableEq P] {m₀ m : KernelSys P}

/-- If the next step of process `p` is to lock the directory that it has allocated in `create`, that
directory is still empty. -/
def newEmpty (m : KernelSys P) (p : P) : Bool :=
  match request (m.thread p) with
  | some (l, .createNew) => m.shared.typ l = tDir → (m.shared.view.dino (m.shared.num l)).size = 0
  | _ => true

omit [Fintype P] [DecidableEq P] in
theorem newEmpty_spec {p : P} {l : Slot} (hreq : request (m.thread p) = some (l, .createNew))
    (h : newEmpty m p = true) (hdir : m.shared.typ l = tDir) :
    (m.shared.view.dino (m.shared.num l)).size = 0 := by
  rw [newEmpty, hreq] at h
  exact of_decide_eq_true h hdir

/-- All directories of a file system have the entries `.` and `..`, and inode 0 is not used. -/
def AllDotted (s : State P) : Prop :=
  (s.view.dino 0).type = 0 ∧ ∀ i, (s.view.dino i).type = tDir → HasDots i (s.view.dirents i)

theorem Reached.dotted (h : Reached (fun m p => newEmpty m p = true) m₀ m)
    (hdots : AllDotted m₀.shared) :
    ∃ gs, (kernelLogic P ⟨m₀.shared.sb, true⟩).Inv m₀.shared.dir m gs :=
  (Global.sound h.rested.1 (h.rested.inv (h.resting.global rfl fun _ => hdots))
    (fun _ _ _ _ hreq hok => newEmpty_spec hreq hok) h.reach).1

omit [Fintype P] in
theorem Step.panic_eq_none {ok : KernelSys P → P → Prop} {m' : KernelSys P}
    {p : P} (h : Step Started ok p m m') : m.panic = none := by
  cases h with
  | start hpanic | resume hpanic => exact hpanic

/-- In every state that the processes reach from a file system in order, if new directories are
empty when `create` locks them: no file that is open for writing is a directory; the next step
changes directories only by storing and erasing entries; and when all calls have returned, the size
of every directory is a multiple of that of an entry, and its first two entries are `.` and `..`. -/
theorem dirs_not_forged (h : Reached (fun m p => newEmpty m p = true) m₀ m)
    (hdots : AllDotted m₀.shared) :
    (∀ f, 0 < (m.shared.ftable f).ref → (m.shared.ftable f).type = .inode →
      (m.shared.ftable f).writable = true →
        (m.shared.view.dino (m.shared.num (m.shared.ftable f).ip)).type ≠ tDir) ∧
    (∀ p m', Step Started (fun m p => newEmpty m p = true) p m m' →
      ∀ i, Relation.ReflTransGen DirStep (m.shared.dir i) (m'.shared.dir i)) ∧
    ((∀ p, m.thread p = none) → ∀ i, (m.shared.view.dino i).type = tDir →
      deSize ∣ (m.shared.view.dino i).size.toNat ∧ HasDots i (m.shared.view.dirents i)) := by
  obtain ⟨gs, hinv⟩ := h.dotted hdots
  have hG : Global _ _ m.shared gs := hinv.shared
  refine ⟨fun f _ ht hw => (hG.base.table.file_type f ht).2 hw, fun p m' hstep i => ?_,
    fun hrest i hi => ?_⟩
  · obtain ⟨⟨gs', hinv'⟩, -⟩ := Global.sound (Step.panic_eq_none hstep) (inv_reset hinv)
      (fun _ _ _ _ hreq hok => newEmpty_spec hreq hok) (.single ⟨p, hstep⟩)
    exact (hinv'.shared : Global _ _ m'.shared gs').past i
  · refine ⟨(hG.base.dirs i hi).1, ((hG.dotted rfl).dir i hi).resolve_right ?_⟩
    rintro ⟨p, ip, hfresh, -⟩
    have hthread := hinv.thread p
    rw [hrest p] at hthread
    have hidle : gs p = .idle := hthread
    simp [hidle, Ghost.idle] at hfresh

theorem allDotted_image : AllDotted image := by
  refine ⟨image_type 0 (by decide), fun i hi => ?_⟩
  obtain rfl := image_dir hi
  exact (by decide +kernel : HasDots 1 (image.view.dirents 1))

/-- Two processes make directories at the same time. -/
theorem dirs_not_forged_image :
    ∃ m, Reached (fun m p => newEmpty m p = true) imageSys m ∧ (∀ p, m.thread p = none) ∧
      (m.shared.view.dino 2).type = tDir ∧ (m.shared.view.dino 3).type = tDir ∧
      HasDots 2 (m.shared.view.dirents 2) ∧ HasDots 3 (m.shared.view.dirents 3) := by
  have hplay : (play newEmpty imageSys [.call 0 (.mkdir (some [97])), .steps 0 3,
      .call 1 (.mkdir (some [98])), .steps 0 100, .steps 1 100]).any (fun m =>
        (m.thread 0).isNone && (m.thread 1).isNone &&
          (m.shared.view.dino 2).type = tDir && (m.shared.view.dino 3).type = tDir) = true := by
    decide +kernel
  obtain ⟨m, hm, hcheck⟩ := (Option.any_eq_true _ _).mp hplay
  simp only [Bool.and_eq_true, Option.isNone_iff_eq_none, decide_eq_true_eq] at hcheck
  obtain ⟨⟨⟨h0, h1⟩, h2⟩, h3⟩ := hcheck
  have hreach := reached_of_play hm
  have hrest : ∀ p, m.thread p = none := Fin.forall_fin_two.mpr ⟨h0, h1⟩
  have hdots := (dirs_not_forged hreach allDotted_image).2.2 hrest
  exact ⟨m, hreach, hrest, h2, h3, (hdots 2 h2).2, (hdots 3 h3).2⟩

/-- A process whose current directory is `/a/b` makes a file `../x` after `/a/b` and `/a` have been
unlinked, while another process makes a directory `/c` and has got the number of `/a`: the first
entry of the new directory is that of the file. -/
theorem dirs_forged :
    ∃ m, Reached (fun _ _ => True) imageSys m ∧ m.panic = none ∧ (∀ p, m.thread p = none) ∧
      (m.shared.view.dino 2).type = tDir ∧ ¬ HasDots 2 (m.shared.view.dirents 2) := by
  have hplay : (play (fun _ _ => true) imageSys [.call 0 (.mkdir (some [97])), .steps 0 100,
      .call 0 (.mkdir (some [97, 47, 98])), .steps 0 100,
      .call 0 (.chdir (some [97, 47, 98])), .steps 0 100,
      .call 1 (.unlink (some [97, 47, 98])), .steps 1 100,
      .call 1 (.unlink (some [97])), .steps 1 100,
      .call 1 (.mkdir (some [99])), .steps 1 3,
      .call 0 (.open (some [46, 46, 47, 120]) oCreate), .steps 0 100, .steps 1 100]).any (fun m =>
        m.panic = none && (m.thread 0).isNone && (m.thread 1).isNone &&
          (m.shared.view.dino 2).type = tDir && ¬ HasDots 2 (m.shared.view.dirents 2)) = true := by
    decide +kernel
  obtain ⟨m, hm, hcheck⟩ := (Option.any_eq_true _ _).mp hplay
  simp only [Bool.and_eq_true, Option.isNone_iff_eq_none, decide_eq_true_eq] at hcheck
  obtain ⟨⟨⟨⟨hpanic, h0⟩, h1⟩, h2⟩, hdots⟩ := hcheck
  have hreach := reached_of_play hm
  simp only at hreach
  exact ⟨m, hreach, hpanic, Fin.forall_fin_two.mpr ⟨h0, h1⟩, h2, hdots⟩

end Dave.Fs
