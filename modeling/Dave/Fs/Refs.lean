import Dave.Fs.Cache
import Mathlib.Algebra.Order.BigOperators.Group.Finset

/-!
# Reference counts

Every reference to an entry of the inode cache has an owner: the current directory of a process, an
open file, or a call in progress. Every reference to an open file is a descriptor. This file defines
what it means that the counts are right, and shows that they stay so.

In the middle of a call the process table may still show a current directory or a descriptor whose
reference has been given up, so the counts are compared with a table `own` of what each process
owns.
-/

namespace Dave.Fs

open Finset Function

/-! ### Counting -/

theorem sum_add_eq {ι : Type*} [Fintype ι] [DecidableEq ι] {f g : ι → ℕ} (a : ι)
    (h : ∀ b, b ≠ a → g b = f b) : ∑ b, g b + f a = ∑ b, f b + g a := by
  rw [← add_sum_erase _ g (mem_univ a), ← add_sum_erase _ f
    (mem_univ a),
    sum_congr rfl fun b hb => h b (ne_of_mem_erase hb)]
  exact Nat.add_right_comm _ _ _ |>.trans (by rw [Nat.add_comm (g a), Nat.add_right_comm])

variable {P : Type} {E : Panic → Prop} {s s' s'' : State P} {ip jp : Slot}

/-- The number of open files that refer to an inode. -/
def fileRefs (ftable : Fin nFile → File) (ip : Slot) : ℕ :=
  ∑ f, if (ftable f).type = .inode ∧ (ftable f).ip = ip then 1 else 0

/-- The number of descriptors of a process for an open file. -/
def Proc.fdRefs (pr : Proc) (f : Fin nFile) : ℕ :=
  ∑ fd, if pr.ofile fd = some f then 1 else 0

variable [Fintype P]

/-- The number of processes that have an inode as current directory. -/
def cwdRefs (own : P → Proc) (ip : Slot) : ℕ := ∑ p, if (own p).cwd = some ip then 1 else 0

/-- The number of descriptors for an open file. -/
def fdRefs (own : P → Proc) (f : Fin nFile) : ℕ := ∑ p, (own p).fdRefs f

/-- Files that are not in use have no inode. -/
def FilesOk (s : State P) : Prop := ∀ f, (s.ftable f).ref = 0 → (s.ftable f).type = .none

omit [Fintype P] in
theorem FilesOk.congr (h : FilesOk s) (hft : s'.ftable = s.ftable) : FilesOk s' := fun f => by
  rw [hft]
  exact h f

/-- The reference counts are right, when the processes own what `own` says, and calls in progress
hold the references `loc`. -/
structure TableOk (s : State P) (own : P → Proc) (loc : Slot → ℕ) : Prop where
  refs : ∀ ip, (s.icache ip).ref = cwdRefs own ip + fileRefs s.ftable ip + loc ip
  fds : ∀ f, (s.ftable f).ref = fdRefs own f
  none_of_zero : FilesOk s
  cwd_type : ∀ p ip, (own p).cwd = some ip → (s.view.dino (s.icache ip).inum).type = tDir
  file_type : ∀ f, (s.ftable f).type = .inode →
    (s.view.dino (s.icache (s.ftable f).ip).inum).type ≠ 0 ∧ ((s.ftable f).writable = true →
        (s.view.dino (s.icache (s.ftable f).ip).inum).type ≠ tDir)

theorem cwdRefs_pos {own : P → Proc} {p : P} (h : (own p).cwd = some ip) : 0 < cwdRefs own ip :=
  sum_pos' (fun _ _ => Nat.zero_le _) ⟨p, mem_univ p, by simp [h]⟩

variable {ftable : Fin nFile → File}

omit [Fintype P] in
theorem fileRefs_pos {f : Fin nFile} (ht : (ftable f).type = .inode) :
    0 < fileRefs ftable (ftable f).ip :=
  sum_pos' (fun _ _ => Nat.zero_le _) ⟨f, mem_univ f, by simp [ht]⟩

namespace TableOk

variable {own : P → Proc} {loc : Slot → ℕ}

variable (h : TableOk s own loc)

include h

theorem ref_pos_of_loc (hl : 0 < loc ip) : 0 < (s.icache ip).ref := by
  have := h.refs ip
  omega

theorem ref_pos_of_cwd {p : P} (hp : (own p).cwd = some ip) : 0 < (s.icache ip).ref := by
  have := h.refs ip
  have := cwdRefs_pos hp
  omega

theorem ref_pos_of_file {f : Fin nFile} (hf : (s.ftable f).type = .inode) :
    0 < (s.icache (s.ftable f).ip).ref := by
  have := h.refs (s.ftable f).ip
  have := fileRefs_pos hf
  omega

/-- A step that keeps the counts, what the entries in use stand for, and the types of allocated
inodes in use. -/
theorem congr (hft : s'.ftable = s.ftable)
    (href : ∀ ip, (s'.icache ip).ref = (s.icache ip).ref)
    (hinum : ∀ ip, 0 < (s.icache ip).ref → (s'.icache ip).inum = (s.icache ip).inum)
    (htype : ∀ ip, 0 < (s.icache ip).ref → (s.view.dino (s.icache ip).inum).type ≠ 0 →
      (s'.view.dino (s.icache ip).inum).type = (s.view.dino (s.icache ip).inum).type) :
    TableOk s' own loc where
  refs ip := by rw [href, hft, h.refs]
  fds f := by rw [hft, h.fds]
  none_of_zero := h.none_of_zero.congr hft
  cwd_type p ip hp := by
    have hpos := h.ref_pos_of_cwd hp
    have ht := h.cwd_type p ip hp
    rw [hinum ip hpos, htype ip hpos (by rw [ht]; decide), ht]
  file_type f hf := by
    rw [hft] at hf ⊢
    have hpos := h.ref_pos_of_file hf
    have ht := h.file_type f hf
    rw [hinum _ hpos, htype _ hpos ht.1]
    exact ht

theorem setInode {x : Inode P} (href : x.ref = (s.icache ip).ref)
    (hinum : x.inum = (s.icache ip).inum) : TableOk (s.setInode ip x) own loc := by
  refine h.congr rfl (fun jp => ?_) (fun jp _ => ?_) fun _ _ _ => rfl
  · rw [State.setInode_icache]
    by_cases hj : jp = ip
    · rw [hj, update_self, href]
    · rw [update_of_ne hj]
  · rw [State.setInode_icache]
    by_cases hj : jp = ip
    · rw [hj, update_self, hinum]
    · rw [update_of_ne hj]

theorem of_own {own' : P → Proc} (hcwd : ∀ p, (own' p).cwd = (own p).cwd)
    (hofile : ∀ p, (own' p).ofile = (own p).ofile) : TableOk s own' loc where
  refs ip := by
    rw [h.refs, cwdRefs, cwdRefs]
    simp only [hcwd]
  fds f := by
    rw [h.fds, fdRefs, fdRefs]
    simp only [Proc.fdRefs, hofile]
  none_of_zero := h.none_of_zero
  cwd_type p ip hp := h.cwd_type p ip (hcwd p ▸ hp)
  file_type := h.file_type

theorem of_eq (hview : s'.view = s.view) (hic : s'.icache = s.icache) (hft : s'.ftable = s.ftable) :
    TableOk s' own loc :=
  h.congr hft (fun _ => by rw [hic]) (fun _ _ => by rw [hic]) fun _ _ _ => by rw [hview]

theorem got {i : ℕ} (hg : Got s i ip s') :
    TableOk s' own (update loc ip (loc ip + 1)) where
  refs jp := by
    by_cases hj : jp = ip
    · subst hj
      rw [hg.ref, hg.ftable, update_self, h.refs]
      omega
    · rw [hg.of_ne hj, hg.ftable, update_of_ne hj, h.refs]
  fds f := by rw [hg.ftable, h.fds]
  none_of_zero := h.none_of_zero.congr hg.ftable
  cwd_type p jp hp := by
    have hpos := h.ref_pos_of_cwd hp
    have hinum : (s'.icache jp).inum = (s.icache jp).inum := by
      by_cases hj : jp = ip
      · subst hj
        rw [hg.of_ref_pos hpos]
      · rw [hg.of_ne hj]
    rw [hinum, hg.view]
    exact h.cwd_type p jp hp
  file_type f hf := by
    rw [hg.ftable] at hf ⊢
    have hpos := h.ref_pos_of_file hf
    have hinum : (s'.icache (s.ftable f).ip).inum = (s.icache (s.ftable f).ip).inum := by
      by_cases hj : (s.ftable f).ip = ip
      · rw [hj] at hpos ⊢
        rw [hg.of_ref_pos hpos]
      · rw [hg.of_ne hj]
    rw [hinum, hg.view]
    exact h.file_type f hf

theorem drop (hl : 0 < loc ip) :
    TableOk (s.setInode ip { s.icache ip with ref := (s.icache ip).ref - 1 }) own
      (update loc ip (loc ip - 1)) := by
  have hinum (jp : Slot) : ((s.setInode ip { s.icache ip with
      ref := (s.icache ip).ref - 1 }).icache jp).inum = (s.icache jp).inum := by
    rw [State.setInode_icache]
    by_cases hj : jp = ip
    · rw [hj, update_self]
    · rw [update_of_ne hj]
  refine ⟨fun jp => ?_, h.fds, h.none_of_zero, fun p jp hp => ?_, fun f hf => ?_⟩
  · rw [State.setInode_icache, State.setInode_ftable]
    have hrefs := h.refs jp
    by_cases hj : jp = ip
    · subst hj
      simp only [update_self]
      omega
    · rw [update_of_ne hj, update_of_ne hj, hrefs]
  · rw [hinum]
    exact h.cwd_type p jp hp
  · rw [State.setInode_ftable] at hf ⊢
    rw [hinum]
    exact h.file_type f hf

theorem freed (hs : CacheOk s) (hf : Freed ip s s')
    (href : (s.icache ip).ref = 1) (hl : 0 < loc ip) : TableOk s' own loc := by
  have hic (jp : Slot) : (s'.icache jp).ref = (s.icache jp).ref ∧
      (s'.icache jp).inum = (s.icache jp).inum := by
    rw [hf.icache]
    by_cases hj : jp = ip
    · rw [hj, update_self]
      exact ⟨rfl, rfl⟩
    · rw [update_of_ne hj]
      exact ⟨rfl, rfl⟩
  have hcount := h.refs ip
  -- so the inode is neither a current directory nor open
  have hne (jp : Slot) (hj : jp ≠ ip) (hpos : 0 < (s.icache jp).ref) :
      s'.view.dino (s.icache jp).inum = s.view.dino (s.icache jp).inum :=
    hf.dino_of_ne _ fun heq => hj (hs.unique jp ip hpos (by omega) heq)
  refine ⟨fun jp => ?_, fun f => ?_, h.none_of_zero.congr hf.ftable, fun p jp hp => ?_,
    fun f hfile => ?_⟩
  · rw [(hic jp).1, hf.ftable, h.refs]
  · rw [hf.ftable, h.fds]
  · have hj : jp ≠ ip := by
      rintro rfl
      have := cwdRefs_pos hp
      omega
    rw [(hic jp).2, hne jp hj (h.ref_pos_of_cwd hp)]
    exact h.cwd_type p jp hp
  · rw [hf.ftable] at hfile ⊢
    have hj : (s.ftable f).ip ≠ ip := by
      intro heq
      have := fileRefs_pos hfile
      rw [heq] at this
      omega
    rw [(hic _).2, hne _ hj (h.ref_pos_of_file hfile)]
    exact h.file_type f hfile

end TableOk

/-! ### Current directories and descriptors -/

/-- The process owns another current directory. -/
def Proc.withCwd (pr : Proc) (cwd : Option Slot) : Proc := { pr with cwd := cwd }

/-- The process owns another file at a descriptor. -/
def Proc.withFd (pr : Proc) (fd : Fin nOfile) (f : Option (Fin nFile)) : Proc :=
  { pr with ofile := update pr.ofile fd f }

omit [Fintype P] in
theorem Proc.fdRefs_withFd (pr : Proc) (fd : Fin nOfile) (o : Option (Fin nFile)) (f : Fin nFile) :
    (pr.withFd fd o).fdRefs f + (if pr.ofile fd = some f then 1 else 0) =
      pr.fdRefs f + (if o = some f then 1 else 0) := by
  have h := sum_add_eq (f := fun fd => if pr.ofile fd = some f then 1 else 0)
    (g := fun fd' => if (pr.withFd fd o).ofile fd' = some f then 1 else 0) fd fun b hb => by
      simp only [withFd, update_of_ne hb]
  simpa only [withFd, update_self, fdRefs] using h

section Update

variable [DecidableEq P] (own : P → Proc) (p : P)

theorem cwdRefs_update (pr : Proc) (ip : Slot) :
    cwdRefs (update own p pr) ip + (if (own p).cwd = some ip then 1 else 0) =
      cwdRefs own ip + (if pr.cwd = some ip then 1 else 0) := by
  have h := sum_add_eq (f := fun q => if (own q).cwd = some ip then 1 else 0)
    (g := fun q => if (update own p pr q).cwd = some ip then 1 else 0) p fun b hb => by
      simp only [update_of_ne hb]
  simpa only [update_self, cwdRefs] using h

theorem fdRefs_update (pr : Proc) (f : Fin nFile) :
    fdRefs (update own p pr) f + (own p).fdRefs f = fdRefs own f + pr.fdRefs f := by
  have h := sum_add_eq (f := fun q => (own q).fdRefs f)
    (g := fun q => (update own p pr q).fdRefs f) p fun b hb => by
      simp only [update_of_ne hb]
  simpa only [update_self, fdRefs] using h

theorem cwdRefs_withFd (fd : Fin nOfile) (o : Option (Fin nFile)) (ip : Slot) :
    cwdRefs (update own p ((own p).withFd fd o)) ip = cwdRefs own ip := by
  have h := cwdRefs_update own p ((own p).withFd fd o) ip
  have hself : ((own p).withFd fd o).cwd = (own p).cwd := rfl
  rw [hself] at h
  omega

theorem fdRefs_withCwd (cwd : Option Slot) (f : Fin nFile) :
    fdRefs (update own p ((own p).withCwd cwd)) f = fdRefs own f := by
  have h := fdRefs_update own p ((own p).withCwd cwd) f
  have hself : ((own p).withCwd cwd).fdRefs f = (own p).fdRefs f := rfl
  omega

theorem fdRefs_withFd (fd : Fin nOfile) (o : Option (Fin nFile)) (f : Fin nFile) :
    fdRefs (update own p ((own p).withFd fd o)) f + (if (own p).ofile fd = some f then 1 else 0) =
      fdRefs own f + (if o = some f then 1 else 0) := by
  have h := fdRefs_update own p ((own p).withFd fd o) f
  have h' := (own p).fdRefs_withFd fd o f
  omega

end Update

namespace TableOk

variable [DecidableEq P] {own : P → Proc} {loc : Slot → ℕ} {p : P}

theorem takeCwd (h : TableOk s own loc) (hp : (own p).cwd = some ip) :
    TableOk s (update own p ((own p).withCwd none))
      (update loc ip (loc ip + 1)) where
  refs jp := by
    have hcwd := cwdRefs_update own p ((own p).withCwd none) jp
    have href := h.refs jp
    simp only [Proc.withCwd, hp, Option.some.injEq, reduceCtorEq, ↓reduceIte] at hcwd ⊢
    by_cases hj : ip = jp
    · subst hj
      simp only [↓reduceIte] at hcwd
      rw [update_self]
      omega
    · simp only [hj, ↓reduceIte] at hcwd
      rw [update_of_ne (Ne.symm hj)]
      omega
  fds f := by rw [fdRefs_withCwd, h.fds]
  none_of_zero := h.none_of_zero
  cwd_type q jp hq := by
    by_cases hqp : q = p
    · subst hqp
      simp [Proc.withCwd] at hq
    · rw [update_of_ne hqp] at hq
      exact h.cwd_type q jp hq
  file_type := h.file_type

theorem giveCwd (h : TableOk s own loc) (hp : (own p).cwd = none) (hl : 0 < loc ip)
    (hdir : (s.view.dino (s.icache ip).inum).type = tDir) :
    TableOk s (update own p ((own p).withCwd (some ip)))
      (update loc ip (loc ip - 1)) where
  refs jp := by
    have hcwd := cwdRefs_update own p ((own p).withCwd (some ip)) jp
    have href := h.refs jp
    simp only [Proc.withCwd, hp, Option.some.injEq, reduceCtorEq, ↓reduceIte] at hcwd ⊢
    by_cases hj : ip = jp
    · subst hj
      simp only [↓reduceIte] at hcwd
      rw [update_self]
      omega
    · simp only [hj, ↓reduceIte] at hcwd
      rw [update_of_ne (Ne.symm hj)]
      omega
  fds f := by rw [fdRefs_withCwd, h.fds]
  none_of_zero := h.none_of_zero
  cwd_type q jp hq := by
    by_cases hqp : q = p
    · subst hqp
      rw [update_self, Proc.withCwd, Option.some.injEq] at hq
      rw [← hq]
      exact hdir
    · rw [update_of_ne hqp] at hq
      exact h.cwd_type q jp hq
  file_type := h.file_type

end TableOk

/-! ### Open files -/

omit [Fintype P] in
theorem fileRefs_update (ftable : Fin nFile → File) (f : Fin nFile) (x : File) (ip : Slot) :
    fileRefs (update ftable f x) ip +
        (if (ftable f).type = .inode ∧ (ftable f).ip = ip then 1 else 0) =
      fileRefs ftable ip + (if x.type = .inode ∧ x.ip = ip then 1 else 0) := by
  have h := sum_add_eq (f := fun g => if (ftable g).type = .inode ∧ (ftable g).ip = ip then 1
    else 0)
    (g := fun g => if (update ftable f x g).type = .inode ∧
      (update ftable f x g).ip = ip then 1 else 0) f fun b hb => by
      simp only [update_of_ne hb]
  simpa only [update_self, fileRefs] using h

omit [Fintype P] in
theorem fileRefs_congr {f : Fin nFile} {x : File} (ht : x.type = (ftable f).type)
    (hip : x.ip = (ftable f).ip) (ip : Slot) :
    fileRefs (update ftable f x) ip = fileRefs ftable ip := by
  have h := fileRefs_update ftable f x ip
  rw [ht, hip] at h
  omega

omit [Fintype P] in
theorem fdRefs_pos_of_ofile {pr : Proc} {fd : Fin nOfile} {f : Fin nFile}
    (h : pr.ofile fd = some f) : 0 < pr.fdRefs f :=
  sum_pos' (fun _ _ => Nat.zero_le _) ⟨fd, mem_univ fd, by simp [h]⟩

theorem le_fdRefs (own : P → Proc) (p : P) (f : Fin nFile) : (own p).fdRefs f ≤ fdRefs own f :=
  single_le_sum (f := fun q => (own q).fdRefs f) (fun _ _ => Nat.zero_le _)
    (mem_univ p)

namespace TableOk

variable {own : P → Proc} {loc : Slot → ℕ} {p : P} {f : Fin nFile} {fd : Fin nOfile}

theorem file_pos (h : TableOk s own loc) (hfd : (own p).ofile fd = some f) :
    0 < (s.ftable f).ref := by
  have h1 := fdRefs_pos_of_ofile hfd
  have h2 := le_fdRefs own p f
  have h3 := h.fds f
  omega

/-- A change of one file, of what the processes own and of the references of calls, when the counts
come out right. -/
theorem updateFile (h : TableOk s own loc) {own' : P → Proc} {loc' : Slot → ℕ} {x : File}
    (hrefs : ∀ ip, cwdRefs own' ip + fileRefs (update s.ftable f x) ip + loc' ip =
      cwdRefs own ip + fileRefs s.ftable ip + loc ip)
    (hself : fdRefs own' f = x.ref) (hother : ∀ g, g ≠ f → fdRefs own' g = fdRefs own g)
    (hzero : x.ref = 0 → x.type = .none) (hcwd : ∀ q, (own' q).cwd = (own q).cwd)
    (hfile : x.type = .inode → (s.view.dino (s.icache x.ip).inum).type ≠ 0 ∧
      (x.writable = true → (s.view.dino (s.icache x.ip).inum).type ≠ tDir)) :
    TableOk (s.setFile f x) own' loc' where
  refs ip := by
    rw [State.setFile_icache, State.setFile_ftable, hrefs]
    exact h.refs ip
  fds g := by
    rw [State.setFile_ftable]
    by_cases hg : g = f
    · rw [hg, update_self, hself]
    · rw [update_of_ne hg, h.fds, hother g hg]
  none_of_zero g hg := by
    rw [State.setFile_ftable] at hg ⊢
    by_cases hgf : g = f
    · rw [hgf, update_self] at hg ⊢
      exact hzero hg
    · rw [update_of_ne hgf] at hg ⊢
      exact h.none_of_zero g hg
  cwd_type q jp hq := h.cwd_type q jp (hcwd q ▸ hq)
  file_type g hg := by
    rw [State.setFile_ftable] at hg ⊢
    by_cases hgf : g = f
    · rw [hgf, update_self] at hg ⊢
      exact hfile hg
    · rw [update_of_ne hgf] at hg ⊢
      exact h.file_type g hg

theorem setOff (h : TableOk s own loc) (off : Word) :
    TableOk (s.setFile f { s.ftable f with off := off }) own loc := by
  refine h.updateFile (fun ip => ?_) (h.fds f).symm (fun _ _ => rfl) (h.none_of_zero f)
    (fun _ => rfl) (h.file_type f)
  rw [fileRefs_congr (by rfl) (by rfl)]

theorem publish (h : TableOk s own loc) {x : File} (hnone : (s.ftable f).type = .none)
    (ht : x.type = .inode) (hip : x.ip = ip) (href : x.ref = (s.ftable f).ref)
    (hpos : 0 < (s.ftable f).ref) (hl : 0 < loc ip)
    (hne : (s.view.dino (s.icache ip).inum).type ≠ 0)
    (hw : x.writable = true → (s.view.dino (s.icache ip).inum).type ≠ tDir) :
    TableOk (s.setFile f x) own (update loc ip (loc ip - 1)) := by
  subst hip
  refine h.updateFile (fun jp => ?_) (href ▸ (h.fds f).symm) (fun _ _ => rfl) (fun hz => ?_)
    (fun _ => rfl) fun _ => ⟨hne, hw⟩
  · have hcount := fileRefs_update s.ftable f x jp
    rw [hnone, if_neg (by simp), ht] at hcount
    by_cases hj : jp = x.ip
    · subst hj
      rw [if_pos ⟨rfl, rfl⟩] at hcount
      rw [update_self]
      omega
    · rw [if_neg (fun hc => hj hc.2.symm)] at hcount
      rw [update_of_ne hj]
      omega
  · omega

variable [DecidableEq P]

omit [Fintype P] in
theorem withFd_cwd (own : P → Proc) (p q : P) (fd : Fin nOfile) (o : Option (Fin nFile)) :
    (update own p ((own p).withFd fd o) q).cwd = (own q).cwd := by
  by_cases hq : q = p
  · rw [hq, update_self]
    rfl
  · rw [update_of_ne hq]

theorem openFd (h : TableOk s own loc) (hfd : (own p).ofile fd = none) :
    TableOk (s.setFile f { s.ftable f with ref := (s.ftable f).ref + 1 })
      (update own p ((own p).withFd fd (some f))) loc := by
  have hcount (g : Fin nFile) := fdRefs_withFd own p fd (some f) g
  simp only [hfd, reduceCtorEq, ↓reduceIte] at hcount
  refine h.updateFile (fun ip => ?_) ?_ (fun g hg => ?_) (fun hz => by simp at hz)
    (fun q => withFd_cwd own p q fd _) (h.file_type f)
  · rw [fileRefs_congr (by rfl) (by rfl), cwdRefs_withFd]
  · have hf := hcount f
    rw [if_pos rfl, ← h.fds f] at hf
    exact hf
  · have := hcount g
    rw [if_neg (by simpa using Ne.symm hg)] at this
    omega

theorem closeFd (h : TableOk s own loc) (hfd : (own p).ofile fd = some f)
    (href : 1 < (s.ftable f).ref) :
    TableOk (s.setFile f { s.ftable f with ref := (s.ftable f).ref - 1 })
      (update own p ((own p).withFd fd none)) loc := by
  have hcount (g : Fin nFile) := fdRefs_withFd own p fd none g
  simp only [hfd, reduceCtorEq, ↓reduceIte, Option.some.injEq] at hcount
  refine h.updateFile (fun ip => ?_) ?_ (fun g hg => ?_) (fun hz => ?_)
    (fun q => withFd_cwd own p q fd _) (h.file_type f)
  · rw [fileRefs_congr (by rfl) (by rfl), cwdRefs_withFd]
  · have := hcount f
    have := h.fds f
    simp only [↓reduceIte] at *
    omega
  · have := hcount g
    rw [if_neg (Ne.symm hg)] at this
    omega
  · simp only at hz
    omega

/-- The last descriptor of a file is given up, and the call takes over the reference to the
inode. -/
theorem closeLast (h : TableOk s own loc) (hfd : (own p).ofile fd = some f)
    (href : (s.ftable f).ref = 1) :
    TableOk (s.setFile f { s.ftable f with ref := 0, type := .none })
      (update own p ((own p).withFd fd none))
      (if (s.ftable f).type = .inode then
        update loc (s.ftable f).ip (loc (s.ftable f).ip + 1) else loc) := by
  have hcount (g : Fin nFile) := fdRefs_withFd own p fd none g
  simp only [hfd, reduceCtorEq, ↓reduceIte, Option.some.injEq] at hcount
  refine h.updateFile (fun ip => ?_) ?_ (fun g hg => ?_) (fun _ => rfl)
    (fun q => withFd_cwd own p q fd _) (fun hx => by simp at hx)
  · have hfile := fileRefs_update s.ftable f { s.ftable f with ref := 0, type := .none } ip
    rw [cwdRefs_withFd]
    simp only [reduceCtorEq, false_and, ↓reduceIte] at hfile ⊢
    by_cases ht : (s.ftable f).type = .inode
    · rw [if_pos ht]
      by_cases hip : ip = (s.ftable f).ip
      · subst hip
        rw [if_pos ⟨ht, rfl⟩] at hfile
        rw [update_self]
        omega
      · rw [if_neg (fun hc => hip hc.2.symm)] at hfile
        rw [update_of_ne hip]
        omega
    · rw [if_neg (fun hc => ht hc.1)] at hfile
      rw [if_neg ht]
      omega
  · have := hcount f
    have := h.fds f
    simp only [↓reduceIte] at *
    omega
  · have := hcount g
    rw [if_neg (Ne.symm hg)] at this
    omega

end TableOk

end Dave.Fs
