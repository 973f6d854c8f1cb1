import Dave.Fs.Linking
import Dave.Fs.Storing
import Dave.Fs.Transact
import Dave.Ide.Driver

/-!
# Failing calls and log reservations

Two facts about the operations of a process that runs alone in a well-formed file system. A call on
names that returns `-1` has changed nothing, except that `open` with `O_CREATE` may have made a file
for which there is no descriptor. And every operation that runs in one transaction logs at most
`MAXOPBLOCKS` different blocks.

## Main results

* A call that fails leaves everything as it was if and only if it does not strand a file that it has
  made (`Call.Strands`).
* An operation logs no more blocks than have been reserved for it.
-/

namespace Dave.Fs

open Prog

variable {P : Type} {s s' t : State P} {me : P} {ip : Slot} {extra : Slot → ℕ} {lk : Finset Slot}
  {F : Stop Panic Slot → Prop} {path : Str} {omode : Word}

/-! ### `open` -/

theorem Alone.ref_ne_one (h : Alone me s extra lk s') (hpos : 0 < extra ip)
    (hkeep : 0 < (s.icache ip).ref ∨ (s'.view.dino (s'.icache ip).inum).nlink ≠ 0)
    (hvalid : (s'.icache ip).valid = true) (hnlink : (s'.icache ip).d.nlink = 0) :
    (s'.icache ip).ref ≠ 1 := by
  have hcount := h.ref ip
  rw [(h.store.cache.loaded ip (h.ref_pos hpos) hvalid).copy] at hnlink
  rcases hkeep with hmany | hlink
  · omega
  · exact absurd hnlink hlink

variable [DecidableEq P]

theorem wpx_iunlockput (hlock : (s.icache ip).lock = some me) (hpos : 0 < (s.icache ip).ref)
    (hkeep : (s.icache ip).valid = true → (s.icache ip).d.nlink = 0 → (s.icache ip).ref ≠ 1) :
    Wpx me F (iunlockput me ip) (fun _ s' => Untouched s s' ∧ s'.logged = s.logged) s := by
  rw [iunlockput, wpx_bind]
  refine (wpx_iunlock hlock hpos).mono fun _ s₁ hs₁ => ?_
  subst hs₁
  refine (wpx_iput (by simp) (by simpa using hkeep)).mono fun _ s₂ hs₂ => ?_
  subst hs₂
  exact ⟨⟨rfl, rfl⟩, rfl⟩

/-- A call of `open` that makes a file. -/
def Makes (s : State P) (me : P) (path : Str) (omode : Word) : Prop :=
  omode &&& oCreate ≠ 0 ∧ Vacant s me path

/-- `sys_open` has an inode, which it has found or made. -/
structure OpenHolds (me : P) (s : State P) (path : Str) (omode : Word) (ip : Slot) (s' : State P) :
    Prop where
  alone : Alone me s (oneRef (some ip)) {ip} s'
  keep : (s'.icache ip).valid = true → (s'.icache ip).d.nlink = 0 → (s'.icache ip).ref ≠ 1
  spends : ∃ i j, Spends 6 (homes s.sb i ∪ homes s.sb j) s s'
  same : s'.view = s.view ↔ ¬ Makes s me path omode

theorem Quiescent.openInode (hq : Quiescent s me) (path : Str) (omode : Word) :
    Wpx me (fun _ => True) (Fs.openInode me path omode) (fun r s' =>
      (r = none ∧ ¬ Makes s me path omode ∧ Using me s (oneRef none) ∅ s') ∨
        ∃ ip, r = some ip ∧ OpenHolds me s path omode ip s') s := by
  have hone (ip : Slot) : 0 < oneRef (some ip) ip := by rw [oneRef_self]; omega
  have hfound {ip : Slot} {s' : State P} (hu : Using me s (oneRef (some ip)) {ip} s')
      (hres : s.view.resolve (s.start me path) (components path) = some (s'.icache ip).inum) :
      OpenHolds me s path omode ip s' := by
    obtain ⟨-, -, hlive⟩ := hq.named_resolve (hq.named_start path) hres
    exact
      { alone := hu.toAlone
        keep := hu.toAlone.ref_ne_one (hone ip) (by rw [hu.view]; exact hu.kept rfl hlive)
        spends := ⟨0, 0, (Spends.of_calm hu.toCalm).mono (by omega) subset_rfl⟩
        same := iff_of_true hu.view fun hm => not_vacant_of_resolve hres hm.2 }
  rw [Fs.openInode]
  split_ifs with hcreate
  · refine (hq.create path 0 0 (by decide)).mono fun r s' hr => ?_
    rcases hr with hnone | ⟨ip, rfl, -, hf⟩ | ⟨ip, d, name, rfl, hc⟩
    · exact .inl ⟨hnone.1, fun hm => hnone.2.1 hm.2, hnone.2.2⟩
    · exact .inr ⟨ip, rfl, hfound hf.held hf.resolve⟩
    · have hdino := (hc.linked (by decide)).dino
      refine .inr ⟨ip, rfl, hc.alone, hc.alone.ref_ne_one (hone ip) (.inr ?_),
        ⟨d, _, hc.spends⟩, iff_of_false (fun hview => ?_) (not_not.mpr ⟨hcreate, d, name,
          hc.parent, hc.absent⟩)⟩
      · rw [hdino]
        decide
      · -- the inode was free
        have hfree := hc.free
        rw [← hview, hdino] at hfree
        exact absurd hfree (by decide)
  · rw [wpx_bind]
    refine (hq.namei path fun _ => trivial).mono fun r s₁ hr => ?_
    obtain ⟨hres, hu⟩ := hr
    cases r with
    | none => exact .inl ⟨rfl, fun hm => hcreate hm.1, hu⟩
    | some ip =>
    rw [Option.map_some] at hres
    obtain ⟨-, htype, hlive⟩ := hq.named_resolve (hq.named_start path) hres.symm
    simp only [wpx_bind]
    refine (hu.ilock (Finset.notMem_empty ip) (hu.ref_pos (hone ip)) htype _).mono
      fun _ s₂ hs₂ => ?_
    obtain ⟨rfl, hu₂⟩ := hs₂
    have hi₂ : ((s₁.lockRead ip me).icache ip).inum = (s₁.icache ip).inum := by
      simp [State.lockRead]
    simp only [wpx_lift, wp_bind, wp_get, wp_pure]
    split_ifs with hdir
    · rw [wpx_bind]
      refine (hu₂.iunlockput (Finset.mem_insert_self ip ∅) (hone ip) ?_).mono fun _ s₃ hs₃ => ?_
      · rw [hi₂, oneRef_self]
        exact (hu.kept rfl hlive).imp_left (by omega)
      · exact .inl ⟨rfl, fun hm => hcreate hm.1, (hs₃.1.congr (oneRef_drop ip)).congr_lk (by simp)⟩
    · exact .inr ⟨ip, rfl, hfound hu₂ (by rw [hi₂, hres])⟩

/-- There is no free file or no free descriptor. -/
def Full (s : State P) (me : P) : Prop :=
  (∀ f, (s.ftable f).ref ≠ 0) ∨ ∀ fd, (s.proc me).ofile fd ≠ none

theorem Quiescent.sysOpen_outcome (hq : Quiescent s me) (hfiles : FilesOk s) (path : Option Str)
    (omode : Word) :
    Wpx me (fun _ => True) (Fs.sysOpen me path omode) (fun r s' =>
      (∃ i j, Spends 6 (homes s.sb i ∪ homes s.sb j) s s') ∧
        (r = -1 → (Untouched s s' ↔ ∀ p, path = some p → Makes s me p omode → ¬ Full s me))) s := by
  cases path with
  | none =>
    exact ⟨⟨0, 0, (Logs.of_eq rfl).spends.mono (by omega) subset_rfl⟩, fun _ =>
      iff_of_true ⟨rfl, rfl⟩ (by simp)⟩
  | some path =>
  simp only [Fs.sysOpen, wpx_bind, wpx_lift, beginOp, wp_modify]
  refine Wpx.mono ((hq.record .beginOp).openInode path omode) fun r s₁ hr => ?_
  rcases hr with ⟨rfl, hmakes, hu⟩ | ⟨ip, rfl, hreach⟩
  · rw [wpx_endWith]
    refine ⟨(hu.outcome 0).spends, fun _ => iff_of_true ⟨hu.view, hu.proc⟩ ?_⟩
    rintro _ ⟨⟩ hm
    exact absurd hm hmakes
  have h := hreach.alone
  have hpos : 0 < (s₁.icache ip).ref := h.ref_pos (by rw [oneRef_self]; omega)
  have hlock := h.lock_some (Finset.mem_singleton_self ip)
  obtain ⟨i, j, hspends⟩ := hreach.spends
  have hbad (hfull : Full s me) {x : State P} (hx : Untouched s₁ x ∧ x.logged = s₁.logged) :
      (∃ i j, Spends 6 (homes s.sb i ∪ homes s.sb j) s (x.record .endOp)) ∧
        ((-1 : ℤ) = -1 → (Untouched s (x.record .endOp) ↔
          ∀ p, some path = some p → Makes s me p omode → ¬ Full s me)) := by
    refine ⟨⟨i, j, hspends.trans (Logs.of_eq hx.2).spends⟩, fun _ => ⟨fun hsame p hp hm => ?_,
      fun hroom => ⟨hx.1.view.trans (hreach.same.mpr fun hm => hroom path rfl hm hfull),
        hx.1.proc.trans h.proc⟩⟩⟩
    cases hp
    exact absurd hm (hreach.same.mp (hx.1.view.symm.trans hsame.view))
  simp only [wpx_bind, wpx_lift]
  refine filealloc_wp (fun hall => ?_) fun f hf => ?_
  · rw [wpx_bind]
    refine (wpx_iunlockput hlock hpos hreach.keep).mono fun _ x hx => ?_
    rw [wpx_endWith]
    exact hbad (.inl fun f => by rw [h.ftable] at hall; exact hall f) hx
  simp only [wpx_bind, wpx_lift]
  refine fdalloc_wp (fun hall => ?_) fun fd hfd => ?_
  · simp only [fileclose, wpx_bind, wpx_lift]
    refine filedrop_wp trivial (fun hmany => absurd hmany (by simp)) fun _ => ?_
    have htype : (s₁.ftable f).type = .none := by
      rw [h.ftable] at hf ⊢
      exact hfiles f hf
    simp only [State.setFile_ftable, Function.update_self, htype, pure_eq_ret, wpx_ret]
    refine Wpx.mono (wpx_iunlockput ?_ ?_ ?_) fun _ x hx => ?_
    · exact hlock
    · exact hpos
    · exact hreach.keep
    · rw [wpx_endWith]
      refine hbad (.inr fun fd => ?_) ⟨⟨hx.1.view, hx.1.proc⟩, hx.2⟩
      have hfd := hall fd
      rwa [State.setFile_proc, h.proc] at hfd
  · simp only [wpx_bind, wpx_lift]
    refine Wpx.mono (wpx_iunlock ?_ ?_) fun _ s₂ hs₂ => ?_
    · exact hlock
    · exact hpos
    subst hs₂
    simp only [endOp, wp_modify, pure_eq_ret, wpx_ret]
    exact ⟨⟨i, j, hspends.trans (Logs.of_eq rfl).spends⟩, fun hr => absurd hr (by omega)⟩

/-! ### `chdir` -/

theorem Quiescent.sysChdir (hq : Quiescent s me) (path : Option Str) :
    Wpx me (fun _ => True) (Fs.sysChdir me path) (fun r s' => r = -1 → Untouched s s') s := by
  simp only [Fs.sysChdir, wpx_bind, wpx_lift, beginOp, wp_modify]
  cases path with
  | none =>
    rw [wpx_endWith]
    exact fun _ => ⟨rfl, rfl⟩
  | some path =>
  rw [wpx_bind]
  refine Wpx.mono ((hq.record .beginOp).namei path fun _ => trivial) fun r s₁ hr => ?_
  obtain ⟨hres, hu⟩ := hr
  cases r with
  | none =>
    rw [wpx_endWith]
    exact fun _ => ⟨hu.view, hu.proc⟩
  | some ip =>
  rw [Option.map_some] at hres
  have hone : 0 < oneRef (some ip) ip := by rw [oneRef_self]; omega
  obtain ⟨-, htype, hlive⟩ :=
    (hq.record .beginOp).named_resolve ((hq.record .beginOp).named_start path) hres.symm
  simp only [wpx_bind]
  refine (hu.ilock (Finset.notMem_empty ip) (hu.ref_pos hone) htype _).mono fun _ s₂ hs₂ => ?_
  obtain ⟨rfl, hu₂⟩ := hs₂
  simp only [wpx_lift, wp_bind, wp_get, wp_pure]
  split_ifs with hdir
  · rw [wpx_bind]
    refine (hu₂.iunlockput (Finset.mem_insert_self ip ∅) hone ?_).mono fun _ s₃ hs₃ => ?_
    · have hi₂ : ((s₁.lockRead ip me).icache ip).inum = (s₁.icache ip).inum := by
        simp [State.lockRead]
      rw [hi₂, oneRef_self]
      exact (hu.kept rfl hlive).imp_left (by omega)
    · rw [wpx_endWith]
      exact fun _ => ⟨hs₃.1.view, hs₃.1.proc⟩
  · -- the call succeeds, or the process has no current directory
    rw [wpx_bind]
    refine (Wpx.trivial _ _).mono fun _ s₃ _ => ?_
    simp only [wpx_bind, wpx_lift, wp_bind, wp_get, wp_pure]
    cases (s₃.proc me).cwd with
    | none => trivial
    | some cwd =>
      simp only [wpx_bind, wpx_lift, endOp, wp_modify, pure_eq_ret, wpx_ret]
      exact (Wpx.trivial _ _).mono fun _ _ _ hr => absurd hr (by decide)

/-! ### Failing calls -/

def Call.OnNames : Call P → Prop
  | .link .. | .unlink .. | .open .. | .mkdir .. | .mknod .. | .chdir .. => True
  | _ => False

/-- The call is an `open` that makes a file for which there is no room. -/
def Call.Strands (s : State P) (me : P) : Call P → Prop
  | .open (some path) omode => Makes s me path omode ∧ Full s me
  | _ => False

/-- A call on names that returns `-1` leaves every inode, the free map, the descriptors and the
current directories as they were, if and only if it is not an `open` that makes a file for which
there is no room. -/
theorem failed_call_changes_nothing (hq : Quiescent s me) (hfiles : FilesOk s) (c : Call P)
    (hc : c.OnNames) :
    Wpx me (fun _ => True) (c.prog me)
      (fun r s' => r = -1 → (Untouched s s' ↔ ¬ c.Strands s me)) s := by
  -- all other calls change nothing
  have hother {s' : State P} {r : ℤ} (h : r = -1 → Untouched s s') (hr : r = -1) :
      Untouched s s' ↔ ¬ False := iff_of_true (h hr) not_false
  cases c with
  | link old new => exact (hq.sysLink old new).mono fun _ _ h => hother h.failed
  | unlink path => exact (hq.sysUnlink path).mono fun _ _ h => hother h.failed
  | «open» path omode =>
    refine (hq.sysOpen_outcome hfiles path omode).mono fun _ _ h hr => (h.2 hr).trans ?_
    cases path <;> simp [Call.Strands]
  | mkdir path =>
    exact (hq.makeNode path (by decide) (by decide) 0 0).mono fun _ _ h => hother h.failed
  | mknod path major minor =>
    exact (hq.makeNode path (by decide) (by decide) _ _).mono fun _ _ h => hother h.failed
  | chdir path => exact (hq.sysChdir path).mono fun _ _ h => hother h
  | _ => exact hc.elim

/-- Unlinking a name that is absent. -/
theorem failed_unlink_changes_nothing : ∃ s : State (Fin 2), s = image ∧
    (exec 0 (Call.prog 0 (.unlink (some [102]))) s).toOption.map Prod.fst = some (-1) ∧
    Wpx 0 (fun _ => True) (Call.prog 0 (.unlink (some [102])))
      (fun r s' => r = -1 → Untouched s s') s := by
  obtain ⟨s, hs⟩ : ∃ s, s = image := ⟨_, rfl⟩
  refine ⟨s, hs, ?_, (failed_call_changes_nothing (hs ▸ quiescent_image 0) (fun f _ => ?_)
    (.unlink (some [102])) trivial).mono fun _ _ h hr => (h hr).mpr not_false⟩
  · rw [hs]
    decide +kernel
  · rw [hs]
    rfl

/-- Open the root `n` times. -/
def openRoot : ℕ → Kernel (Fin 2) Unit
  | 0 => return
  | n + 1 => do
    let _ ← sysOpen 0 (some [slash]) 0
    openRoot n

/-- When all descriptors are in use, `open` with `O_CREATE` returns `-1` and has made the file. -/
theorem failed_open_makes_file : ∃ s s' : State (Fin 2),
    exec 0 (openRoot nOfile) image = .ok ((), s) ∧
    exec 0 (Call.prog 0 (.open (some [slash, 102]) oCreate)) s = .ok (-1, s') ∧
    s.view.resolve rootIno [[102]] = none ∧ s'.view.resolve rootIno [[102]] = some 2 ∧
    ¬ Untouched s s' := by
  have hrun : ((exec 0 (openRoot nOfile) image).toOption.bind fun r =>
      (exec 0 (Call.prog 0 (.open (some [slash, 102]) oCreate)) r.2).toOption.map fun q =>
        (q.1, r.2.view.resolve rootIno [[102]], q.2.view.resolve rootIno [[102]])) =
      some (-1, none, some 2) := by decide +kernel
  cases hopen : exec 0 (openRoot nOfile) image with
  | error e =>
    rw [hopen] at hrun
    cases hrun
  | ok r =>
  rw [hopen] at hrun
  change ((exec 0 (Call.prog 0 (.open (some [slash, 102]) oCreate)) r.2).toOption.map fun q =>
    (q.1, r.2.view.resolve rootIno [[102]], q.2.view.resolve rootIno [[102]])) = _ at hrun
  cases hlast : exec 0 (Call.prog 0 (.open (some [slash, 102]) oCreate)) r.2 with
  | error e =>
    rw [hlast] at hrun
    cases hrun
  | ok q =>
  rw [hlast] at hrun
  obtain ⟨hr, hpair⟩ := Prod.mk.inj (Option.some.inj hrun)
  obtain ⟨hbefore, hafter⟩ := Prod.mk.inj hpair
  refine ⟨r.2, q.2, rfl, ?_, hbefore, hafter, fun h => ?_⟩
  · rw [← hr, hlast]
  · rw [h.view, hbefore] at hafter
    cases hafter

/-! ### Log reservations -/

omit [DecidableEq P] in
theorem ilock_calm (s : State P) (ip : Slot) (site : Site) :
    Wpx me (fun _ => True) (ilock ip site) (fun _ s' => Calm s s') s := by
  simp only [ilock, wpx_bind, wpx_lift, wp_bind, wp_get]
  split_ifs
  · trivial
  rw [wp_pure]
  cases hlock : (s.icache ip).lock with
  | some q => exact (wpx_acq_of_some (q := q) hlock).mpr trivial
  | none =>
    rw [wpx_acq hlock]
    simp only [fill, wp_bind, wp_get]
    split_ifs
    · trivial
    · exact ⟨rfl, rfl, rfl, rfl⟩
    · exact ⟨rfl, rfl, rfl, rfl⟩

theorem iunlock_calm (s : State P) (ip : Slot) :
    Wpx me (fun _ => True) (iunlock me ip) (fun _ s' => Calm s s') s := by
  simp only [iunlock, wpx_bind, wpx_lift, wp_bind, wp_get]
  split_ifs
  · trivial
  · exact ⟨rfl, rfl, rfl, rfl⟩

theorem writei_logs (s : State P) (ip : Slot) (src : List Byte) (off : Word) :
    Wpx me (fun _ => True) (writei me ip src off) (fun _ s' =>
      ∃ i, Spends (2 * span off.toNat src.length) (homes s.sb i) s s') s := by
  simp only [writei, wpx_bind, wpx_lift, wp_bind, wp_get, wp_pure]
  split_ifs
  · simp only [wpx_bind]
    refine (iunlock_calm s ip).mono fun _ s₁ h₁ => ?_
    refine (ilock_calm s₁ ip _).mono fun _ s₂ h₂ => ?_
    exact ⟨0, (Spends.of_calm (h₁.trans h₂)).mono (Nat.zero_le _) subset_rfl⟩
  · exact ⟨0, (Spends.of_calm (.refl s)).mono (Nat.zero_le _) subset_rfl⟩
  · rw [wpx_lift]
    exact (writeData_logs s ip src off).mono fun _ s' h => ⟨_, h.1⟩

theorem span_le_four (off : ℕ) {n : ℕ} (hn : n ≤ maxWrite) : span off n ≤ 4 := by
  have hmax : maxWrite = 1536 := rfl
  have hmod := Nat.mod_lt off (by decide : 0 < bSize)
  rw [span]
  split_ifs
  · omega
  · simp only [nblk, bSize] at hmod ⊢
    omega

theorem chunk_logs (s : State P) (f : Fin nFile) {src : List Byte} (hsrc : src.length ≤ maxWrite) :
    Wpx me (fun _ => True) (Writing.chunk me f src) (fun _ s' =>
      ∃ i, Spends 8 (homes s.sb i) s s') s := by
  simp only [Writing.chunk, wpx_bind, wpx_lift, beginOp, endOp, wp_modify, wp_bind, wp_get, wp_pure]
  refine (ilock_calm _ _ _).mono fun _ s₁ h₁ => ?_
  refine (writei_logs s₁ _ src _).mono fun r s₂ h₂ => ?_
  obtain ⟨i, hspends⟩ := h₂
  refine (iunlock_calm _ _).mono fun _ s₃ h₃ => ⟨i, ?_⟩
  rw [h₁.sb] at hspends
  have hle := Nat.mul_le_mul_left 2 (span_le_four (s₁.ftable f).off.toNat hsrc)
  have hbefore : Spends 0 (homes s.sb i) s s₁ := (Logs.of_eq h₁.logged).spends
  have hafter : Spends 0 (homes s.sb i) s₂ (s₃.record .endOp) := (Logs.of_eq h₃.logged).spends
  exact ((hbefore.trans hspends).trans hafter).mono (by omega) subset_rfl

theorem filewrite_logs (s : State P) (f : Fin nFile) {src : List Byte}
    (hsrc : src.length ≤ maxWrite) :
    Wpx me (fun _ => True) (filewrite me f src) (fun _ s' =>
      ∃ i, Spends 8 (homes s.sb i) s s') s := by
  have hcalm : ∃ i, Spends 8 (homes s.sb i) s s :=
    ⟨0, (Spends.of_calm (.refl s)).mono (by omega) subset_rfl⟩
  simp only [filewrite, wpx_bind, wpx_lift, wp_bind, wp_get, wp_pure]
  split_ifs
  · exact hcalm
  cases (s.ftable f).type with
  | none => trivial
  | inode =>
  simp only [wpx_bind]
  cases src with
  | nil => exact hcalm
  | cons b src =>
  rw [List.length_cons, Writing.wpx_filewriteLoop (List.cons_ne_nil b src),
    List.take_of_length_le hsrc]
  refine (chunk_logs s f hsrc).mono fun r s₁ hs₁ => ?_
  rw [List.drop_eq_nil_of_le hsrc]
  cases r with
  | none => exact hs₁
  | some n =>
    rw [Option.elim_some]
    split_ifs
    · trivial
    · cases src.length <;> exact hs₁

/-- The operations that run in one transaction: a round of `filewrite`, the calls that make and
remove names, and giving up a reference. -/
inductive Op where
  | chunk (f : Fin nFile) (src : List Byte)
  | «open» (path : Option Str) (omode : Word)
  | mkdir (path : Option Str)
  | mknod (path : Option Str) (major minor : Word)
  | link (old new : Option Str)
  | unlink (path : Option Str)
  | iput (ip : Slot)

def Op.prog (me : P) : Op → Kernel P Unit
  | chunk f src => do let _ ← filewrite me f src
  | «open» path omode => do let _ ← sysOpen me path omode
  | mkdir path => do let _ ← sysMkdir me path
  | mknod path major minor => do let _ ← sysMknod me path major minor
  | link old new => do let _ ← sysLink me old new
  | unlink path => do let _ ← sysUnlink me path
  | iput ip => Fs.iput ip

/-- A round of `filewrite` has at most `maxWrite` bytes, and a reference that is given up is one
that there is. -/
def Op.Allowed (s : State P) : Op → Prop
  | chunk _ src => src.length ≤ maxWrite
  | iput ip => 0 < (s.icache ip).ref
  | _ => True

/-- Every operation that runs alone in a well-formed file system of at most `FSSIZE` blocks logs at
most `MAXOPBLOCKS` different blocks. -/
theorem op_fits_reservation (hq : Quiescent s me) (hfiles : FilesOk s)
    (hsize : s.sb.size ≤ Ide.fsSize) (op : Op) (hop : op.Allowed s) :
    Wpx me (fun _ => True) (op.prog me) (fun _ s' => Fits s s') s := by
  have hle : s.sb.size ≤ bpb := hsize.trans (by decide)
  cases op with
  | chunk f src =>
    rw [Op.prog, wpx_bind]
    refine (filewrite_logs s f hop).mono fun _ s' h => ?_
    obtain ⟨i, h⟩ := h
    exact .of_homes hle h (by decide)
  | «open» path omode =>
    rw [Op.prog, wpx_bind]
    refine (hq.sysOpen_outcome hfiles path omode).mono fun _ s' h => ?_
    obtain ⟨⟨i, j, h⟩, -⟩ := h
    exact .of_homes_union hle h (by decide)
  | mkdir path =>
    rw [Op.prog, wpx_bind]
    exact (hq.makeNode path (by decide) (by decide) 0 0).mono fun _ _ h => h.fits hle
  | mknod path major minor =>
    rw [Op.prog, wpx_bind]
    exact (hq.makeNode path (by decide) (by decide) _ _).mono fun _ _ h => h.fits hle
  | link old new =>
    rw [Op.prog, wpx_bind]
    exact (hq.sysLink old new).mono fun _ _ h => h.fits hle
  | unlink path =>
    rw [Op.prog, wpx_bind]
    exact (hq.sysUnlink path).mono fun _ _ h => h.fits hle
  | iput ip =>
    refine (wpx_iput_logs hq.store (hq.lock ip) hop).mono fun _ s' h => ?_
    exact .of_homes hle h.2.1.spends (by decide)

/-- Making a directory. -/
theorem mkdir_fits_reservation : ∃ s : State (Fin 2), s = image ∧
    (exec 0 (Op.prog 0 (.mkdir (some [102]))) s).toOption.map Prod.fst = some () ∧
    Wpx 0 (fun _ => True) (Op.prog 0 (.mkdir (some [102]))) (fun _ s' => Fits s s') s := by
  obtain ⟨s, hs⟩ : ∃ s, s = image := ⟨_, rfl⟩
  refine ⟨s, hs, ?_, op_fits_reservation (hs ▸ quiescent_image 0) (fun f _ => ?_) ?_
    (.mkdir (some [102])) trivial⟩
  · rw [hs]
    decide +kernel
  · rw [hs]
    rfl
  · rw [hs]
    decide

end Dave.Fs
