import Dave.Fs.Files

/-!
# All calls keep the invariant

What is left of the calls: those that make and link names, `chdir`, and those on processes. Every
call begins and ends with the ghost of a process that holds nothing, whatever the other processes
do at its lock operations.
-/

namespace Dave.Fs

open Ghost Function Interleave

variable {P : Type} [DecidableEq P] [Fintype P] {κ : Scope} {old : History} {me : P}
  {s s' : State P}
  {gs : P → Ghost} {ip jp dp : Slot} {g : Ghost} {sn : Snap} {fd : Fin nOfile} {f : Fin nFile}

/-! ### Names -/

theorem putAndEnd_triple (hfree : g.Free) (r : ℤ) :
    KTriple κ me ((g.take ip).setLock ip (some (some sn))) (do
      iunlockput me ip
      endWith r) (fun _ g' => g' = g) := by
  refine .seq _ (iunlockput_free (hfree.take ip) (g.take_refs_pos ip)) fun _ => ?_
  rw [drop_take]
  exact endWith_triple _

theorem makeNode_triple (path : Option Str) {type : Short} (htype : type ≠ 0)
    (major minor : Short) :
    KTriple κ me .begin (makeNode me path type major minor) (fun _ g' => g' = .begin) := by
  refine .seq _ (record_triple _) fun _ => ?_
  cases path with
  | none => exact endWith_triple _
  | some path =>
    refine (create_triple path begin_free htype major minor).bind ?_
    rintro (_ | ip) g' hg'
    · exact hg' ▸ endWith_triple _
    · obtain ⟨sn, -, rfl⟩ := hg'
      exact putAndEnd_triple begin_free 0

theorem linkBad_triple (hfree : g.Free) :
    KTriple κ me (g.take ip) (linkBad me ip) (fun _ g' => g' = g) := by
  have hfree' := hfree.take ip
  refine (ilock_triple hfree'.active (.inl (g.take_refs_pos ip))).bind ?_
  rintro _ _ ⟨-, sn, -, -, -, rfl⟩
  refine .seq _ (setFields_triple (g := (g.take ip).setLock ip (some (some sn))) hfree'.active
    (update_self ..) (fun _ => rfl) (fun _ => rfl) fun _ => rfl) fun _ => ?_
  rw [setLock_setLock]
  exact putAndEnd_triple hfree _

/-- The second half of `sys_link`, from the lock of the directory on. -/
theorem linkParent_end_triple (hfree : g.Free) {name : Str} {i : Inode P}
    (hi : i.inum < κ.sb.ninodes) :
    KTriple κ me ((g.take ip).take dp) (do
      ilock dp (.linkParent name)
      let ddev ← .lift do return ((← get).icache dp).dev
      if ddev ≠ i.dev then
        iunlockput me dp
        linkBad me ip
      else if ← dirlink dp name i.inum then
        iunlockput me dp
        iput ip
        endWith 0
      else
        iunlockput me dp
        linkBad me ip) (fun _ g' => g' = g) := by
  have hfree₁ := hfree.take ip
  have hfree₂ := hfree₁.take dp
  have hr := (g.take ip).take_refs_pos dp
  have hput (sn : Snap) : KTriple κ me (((g.take ip).take dp).setLock dp (some (some sn)))
      (iunlockput me dp) (fun _ g' => g' = g.take ip) :=
    (iunlockput_free hfree₂ hr).mono fun _ _ hg' => hg'.trans (drop_take ..)
  refine (ilock_triple hfree₂.active (.inl hr)).bind ?_
  rintro _ _ ⟨-, sn, -, -, -, rfl⟩
  refine .seq _ (read_triple _) fun ddev => ?_
  split_ifs
  · exact .seq _ (hput sn) fun _ => linkBad_triple hfree
  refine (dirlink_triple (g := ((g.take ip).take dp).setLock dp (some (some sn))) hfree₂.active
    (update_self ..) hi fun _ hfresh => absurd hfree₂.quiet.fresh hfresh).bind ?_
  rintro (_ | _) g' hg'
  · simp only [Bool.false_eq_true, if_false] at hg' ⊢
    rw [(hfree₂.quiet.setLock dp _).quiet_eq] at hg'
    subst hg'
    exact .seq _ (hput sn) fun _ => linkBad_triple hfree
  · simp only [if_true] at hg' ⊢
    obtain ⟨sn', rfl, -⟩ := hg'
    rw [setLock_setLock]
    refine .seq _ (hput sn') fun _ => .seq g ?_ fun _ => endWith_triple _
    refine (iput_triple hfree₁.active (fun _ => hfree₁.quiet.fresh) (g.take_refs_pos ip)).mono ?_
    rintro _ _ ⟨rfl, -⟩
    rw [hfree₁.quiet.quiet_eq, drop_take]

theorem sysLink_triple (old new : Option Str) :
    KTriple κ me .begin (sysLink me old new) (fun _ g' => g' = .begin) := by
  cases old with
  | none => exact .ret rfl
  | some old =>
    cases new with
    | none => exact .ret rfl
    | some new =>
      refine .seq _ (record_triple _) fun _ => ?_
      refine (namei_triple old begin_free).bind ?_
      rintro (_ | ip) g' hg'
      · exact hg' ▸ endWith_triple _
      obtain rfl := hg'
      have hfree := begin_free.take ip
      refine (ilock_triple hfree.active (.inl (begin.take_refs_pos ip))).bind ?_
      rintro _ _ ⟨-, sn, -, -, -, rfl⟩
      have hl : ((begin.take ip).setLock ip (some (some sn))).locks ip = some (some sn) :=
        update_self ..
      refine (read_of_triple (R := fun i : Inode P => i.inum < κ.sb.ninodes)
        fun s gs hG hg => ?_).bind ?_
      · rw [hG.locked_inum hg hl]
        exact hG.inum_lt hg hl
      rintro i _ ⟨hi, rfl⟩
      split_ifs with hdir
      · exact putAndEnd_triple begin_free _
      refine .seq _ (setFields_triple (g := (begin.take ip).setLock ip (some (some sn)))
        hfree.active hl (fun _ => rfl) (fun _ => rfl) fun _ => rfl) fun _ => ?_
      rw [setLock_setLock]
      refine .seq _ (iunlock_quiet (g := (begin.take ip).setLock ip _) hfree.active
        (fun _ => hfree.quiet.fresh) (by simp)) fun _ => ?_
      rw [hfree.unlock]
      refine (nameiparent_triple new hfree).bind ?_
      rintro (_ | ⟨dp, name⟩) g' hg'
      · exact hg' ▸ linkBad_triple begin_free
      · exact hg' ▸ linkParent_end_triple begin_free hi

/-! ### The current directory -/

/-- The current directory is to become `ip`. -/
def Ghost.movingTo (ip : Slot) : Ghost := { Ghost.begin with moving := some (some ip) }

theorem Global.moveCwd (h : Global κ old s gs) (hg : gs me = begin.take ip)
    (hdir : s.typ ip = tDir) {cwd : Slot} (hcwd : (s.proc me).cwd = some cwd) :
    Global κ old s (update gs me ((movingTo ip).take cwd)) := by
  have hlocks (jp : Slot) : (gs me).locks jp = none := by
    rw [hg]
    rfl
  have htake := h.base.takeCwd (by rw [hg]; rfl) (by rw [hg]; rfl) hcwd
  rw [hg] at htake
  have hself := update_self me
    { (begin.take ip).setRefs cwd ((begin.take ip).refs cwd + 1) with
      moving := some none } gs
  have hpos : 0 < ((begin.take ip).take cwd).refs ip :=
    take_refs_mono (begin.take_refs_pos ip) cwd
  have hgive := htake.giveCwd (by rw [hself]; rfl) (by rw [hself]) (by rw [hself]; exact hpos)
    (fun jp => by rw [hself]; rfl) hdir
  rw [hself, update_idem] at hgive
  have heq : { ({ (begin.take ip).setRefs cwd ((begin.take ip).refs cwd + 1) with
      moving := some none }).setRefs ip (({ (begin.take ip).setRefs cwd
        ((begin.take ip).refs cwd + 1) with moving := some none } : Ghost).refs ip - 1) with
      moving := some (some ip) } = (movingTo ip).take cwd := by
    have hcomm : ((begin.take ip).take cwd).drop ip = begin.take cwd := by
      rw [take_comm, drop_take]
    calc _ = { ((begin.take ip).take cwd).drop ip with moving := some (some ip) } := rfl
      _ = (movingTo ip).take cwd := by
        rw [hcomm]
        rfl
  rw [heq] at hgive
  refine h.retable ?_ ⟨rfl, rfl⟩ rfl rfl rfl hgive
  rw [hg]
  exact begin_free.quiet.take ip

/-- The reference to the old directory is dropped, and that to the new one is kept. -/
theorem setCwd_triple (hdir : sn.d.type = tDir) :
    KTriple κ me ((begin.take ip).setLock ip (some (some sn))) (do
      iunlock me ip
      match ← .lift do return ((← get).proc me).cwd with
      | none => .fail .nullPointer
      | some cwd =>
        iput cwd
        .lift endOp
        .lift <| modify fun s => s.setProc me { s.proc me with cwd := some ip }
        return (0 : ℤ)) (fun _ g' => g' = .begin) := by
  have hfree := begin_free.take ip
  have hend {cwd : Slot} : KTriple κ me ((movingTo ip).take cwd) (do
      iput cwd
      .lift endOp
      .lift <| modify fun s => s.setProc me { s.proc me with cwd := some ip }
      return (0 : ℤ)) (fun _ g' => g' = .begin) := by
    refine .seq (movingTo ip) ?_ fun _ => .seq _ (record_triple _) fun _ =>
      .seq _ (.lift fun s gs hG hg => ⟨.begin, rfl, ?_⟩) fun _ => .ret rfl
    · have hquiet : ((movingTo ip).take cwd).Quiet := ⟨rfl, rfl⟩
      refine (iput_triple (g := (movingTo ip).take cwd) rfl (fun _ => rfl)
        (take_refs_pos _ cwd)).mono ?_
      rintro _ _ ⟨rfl, -⟩
      rw [hquiet.quiet_eq, drop_take]
    · have hbase : Base (s.setProc me { s.proc me with cwd := some ip })
          (update gs me { gs me with moving := none }) :=
        (Global.base hG).setCwd (by rw [hg]; rfl) (by rw [hg]; rfl) (fun jp => by rw [hg]; rfl)
          (by rw [hg]; rfl)
      rw [hg] at hbase
      refine Global.retable hG ?_ begin_free.quiet rfl rfl rfl hbase
      rw [hg]
      exact ⟨rfl, rfl⟩
  intro old s gs hG
  rw [Logic.cwp_bind, iunlock, Logic.cwp_bind, Logic.cwp_lift]
  simp only [wp_bind, wp_get]
  split_ifs
  · exact Panic.noConfusion
  -- the current directory is read before anybody else can act
  refine ⟨(begin.take ip).setLock ip (some (some sn)), label_none, hG,
    fun _ s' gs' hG' hg' => ?_⟩
  have hl : (gs' me).locks ip = some (some sn) := by
    rw [hg']
    exact update_self ..
  have hsnap := ((Global.base hG').loc me).snap ip sn hl
  have hrel := Global.release hG' hg' rfl (by rw [← hg', hl]; simp)
  have hunlock : ((begin.take ip).setLock ip (some (some sn))).setLock ip none =
      begin.take ip := by
    rw [setLock_setLock]
    exact setLock_of_eq (hfree.locks ip)
  rw [hunlock] at hrel
  have htyp : (s'.setInode ip { s'.icache ip with lock := none }).typ ip = tDir := by
    rw [← hdir, ← hsnap.dino]
    change (s'.view.dino
      (update s'.icache ip { s'.icache ip with lock := none } ip).inum).type = _
    rw [update_self]
  rw [Logic.Cwp, Logic.cwp_bind, Logic.cwp_lift]
  simp only [wp_bind, wp_get, wp_pure]
  cases hcwd : ((Locks.setOwner s' ip (none : Option P)).proc me).cwd with
  | none => exact Panic.noConfusion
  | some cwd =>
    have hmove := hrel.moveCwd (update_self ..) htyp hcwd
    rw [update_idem] at hmove
    exact hend _ _ gs' hmove

theorem sysChdir_triple (path : Option Str) :
    KTriple κ me .begin (sysChdir me path) (fun _ g' => g' = .begin) := by
  refine .seq _ (record_triple _) fun _ => ?_
  cases path with
  | none => exact endWith_triple _
  | some path =>
    refine (namei_triple path begin_free).bind ?_
    rintro (_ | ip) g' hg'
    · exact hg' ▸ endWith_triple _
    obtain rfl := hg'
    have hfree := begin_free.take ip
    refine (ilock_triple hfree.active (.inl (begin.take_refs_pos ip))).bind ?_
    rintro _ _ ⟨-, sn, -, -, -, rfl⟩
    have hl : ((begin.take ip).setLock ip (some (some sn))).locks ip = some (some sn) :=
      update_self ..
    refine (readFields_triple hl).bind ?_
    rintro _ _ ⟨rfl, rfl⟩
    split_ifs with hdir
    · exact putAndEnd_triple begin_free _
    · exact setCwd_triple (by simpa using hdir)

theorem execReads_triple (hfree : g.Free) (hr : 0 < g.refs ip)
    (reads : List (Word × Word × Option (List Byte))) :
    KTriple κ me (g.setLock ip (some (some sn))) (execReads me ip reads)
      (fun _ g' => ∃ sn', g' = g.setLock ip (some (some sn'))) := by
  induction reads generalizing sn with
  | nil => exact .ret ⟨sn, rfl⟩
  | cons r reads ih =>
    refine (readi_triple hfree.active hfree.quiet (.inl hr) hfree.locks r.1 r.2.1 r.2.2).bind ?_
    rintro (_ | bs) _ ⟨sn', rfl⟩
    · exact .ret ⟨sn', rfl⟩
    · exact ih

theorem sysExec_triple (path : Option Str) (reads : List (Word × Word × Option (List Byte))) :
    KTriple κ me .begin (sysExec me path reads) (fun _ g' => g' = .begin) := by
  cases path with
  | none => exact .ret rfl
  | some path =>
    refine .seq _ (record_triple _) fun _ => ?_
    refine (namei_triple path begin_free).bind ?_
    rintro (_ | ip) g' hg'
    · exact hg' ▸ endWith_triple _
    obtain rfl := hg'
    have hfree := begin_free.take ip
    have hr := begin.take_refs_pos ip
    refine (ilock_triple hfree.active (.inl hr)).bind ?_
    rintro _ _ ⟨-, sn, -, -, -, rfl⟩
    refine (execReads_triple hfree hr reads).bind ?_
    rintro _ _ ⟨sn', rfl⟩
    exact putAndEnd_triple begin_free 0

/-! ### Processes -/

omit [DecidableEq P] [Fintype P] in
theorem LocalOk.idle_of_not_live {p : P} (h : LocalOk s p g) (hdead : (s.proc p).state ≠ .live) :
    g = .idle :=
  h.idle (by
    cases hact : g.active with
    | false => rfl
    | true => exact absurd (h.live hact) hdead)

theorem sysFork_triple (child : Option P) :
    KTriple κ me .begin (sysFork me child) (fun _ g' => g' = .begin) := by
  refine .lift fun {old} s gs hG hg => ?_
  have hsame : Global κ old s (update gs me .begin) := by
    rwa [← hg, update_eq_self]
  cases child with
  | none => exact ⟨_, rfl, hsame⟩
  | some np =>
    simp only [wp_bind, wp_get]
    split_ifs with hstate
    · exact ⟨_, rfl, hsame⟩
    have hbase := Global.base hG
    have hdead : (s.proc np).state ≠ .live := by
      rw [not_not.mp hstate]
      simp
    have hidle : gs np = .idle := (hbase.loc np).idle_of_not_live hdead
    have hne : me ≠ np := by
      rintro rfl
      exact hdead ((hbase.loc me).live (by rw [hg]; rfl))
    rw [wp_bind]
    refine (forkFiles_spec hbase hne (by rw [hg]; exact ⟨rfl, rfl⟩) hidle hdead).mono
      fun _ t ht => ?_
    simp only [wp_bind, wp_get, ht.proc me hne]
    cases hcwd : (s.proc me).cwd with
    | none => exact Panic.noConfusion
    | some c =>
      simp only [idup, wp_bind, wp_modify, wp_pure]
      refine ⟨_, rfl, ?_⟩
      have hfork := hbase.fork hne hg hidle ht hcwd
      rw [← update_eq_self me gs, hg] at hfork
      refine Global.of_view hG ht.sb hfork ht.view (fun jp _ => ?_)
        (by rw [hg]; exact ⟨rfl, rfl, fun _ _ => id⟩)
      rw [State.num, State.num, State.setProc_icache, State.setInode_icache, ht.icache]
      by_cases hj : jp = c
      · rw [hj, update_self]
      · rw [update_of_ne hj]

theorem sysWait_triple (q : P) : KTriple κ me .begin (sysWait q) (fun _ g' => g' = .begin) := by
  refine .lift fun s gs hG hg => ?_
  simp only [wp_bind, wp_get]
  split_ifs with hq
  · have hbase := (Global.base hG).wait hq
    rw [← update_eq_self me gs, hg] at hbase
    refine ⟨_, rfl, Global.retable hG ?_ begin_free.quiet rfl rfl rfl hbase⟩
    rw [hg]
    exact begin_free.quiet
  · exact ⟨_, rfl, by rwa [← hg, update_eq_self]⟩

/-- The process exits. Its entry in the process table is `pr`. -/
def Ghost.exiting (pr : Proc) : Ghost := { Ghost.begin with proc := some pr }

theorem Ghost.exiting_quiet (pr : Proc) : (exiting pr).Quiet :=
  ⟨rfl, rfl⟩

/-- The file of descriptor `fd` has been closed. -/
def Ghost.closingFd (pr : Proc) (fd : Fin nOfile) : Ghost :=
  { Ghost.exiting pr with closing := some fd }

theorem Ghost.closingFd_quiet (pr : Proc) (fd : Fin nOfile) : (closingFd pr fd).Quiet :=
  ⟨rfl, rfl⟩

theorem Ghost.closingFd_own (pr : Proc) (fd : Fin nOfile) :
    (closingFd pr fd).own pr = pr.withFd fd none := by
  rw [own, Proc.withFd]
  congr 1
  funext fd'
  change (if some fd = some fd' then none else pr.ofile fd') = update pr.ofile fd none fd'
  by_cases hf : fd' = fd
  · rw [hf, if_pos rfl, update_self]
  · rw [if_neg fun h => hf (Option.some.inj h).symm, update_of_ne hf]

theorem closeFile_triple {pr : Proc} (hfd : pr.ofile fd = some f) :
    KTriple κ me (exiting pr) (fileclose f) (fun _ g' => g' = closingFd pr fd) := by
  intro old s gs hG
  have hself := update_self me (exiting pr) gs
  have hpr : s.proc me = pr := ((Global.base hG).loc me).proc pr (by rw [hself]; rfl)
  have howned : owned s (update gs me (exiting pr)) me = pr := by
    rw [owned, hself, hpr]
    exact Ghost.Plain.own ⟨rfl, rfl⟩ pr
  have hlive : pr.state = .live := by
    rw [← hpr]
    exact ((Global.base hG).loc me).live (by rw [hself]; rfl)
  have hdrop := Global.filedrop (g := closingFd pr fd) hG pr
    (by rw [hself]; exact exiting_quiet pr) (closingFd_quiet pr fd)
    (by rw [howned]; exact hfd) (by rw [howned, closingFd_own]) (by rw [hself]; rfl) hlive rfl
    (by rw [hself]; rfl) (fun _ => rfl) rfl fun pr' hpr' => Option.some.inj hpr'
  have hsame : s.setProc me pr = s := by rw [State.setProc, ← hpr, update_eq_self]
  simp only [update_idem, hsame] at hdrop
  exact fileclose_cwp rfl (closingFd_quiet pr fd) hdrop

theorem clearFd_triple (pr : Proc) (fd : Fin nOfile) :
    KTriple κ me (closingFd pr fd) (.lift (setOfile me fd none))
      (fun _ g' => g' = exiting (pr.withFd fd none)) := by
  refine .lift fun s gs hG hg => ?_
  have hbase := Global.base hG
  have hpr : s.proc me = pr := (hbase.loc me).proc pr (by rw [hg]; rfl)
  have hlive : pr.state = .live := by
    rw [← hpr]
    exact (hbase.loc me).live (by rw [hg]; rfl)
  have hnew : (s.setProc me (pr.withFd fd none)).proc me = pr.withFd fd none :=
    update_self ..
  rw [setOfile, wp_modify, hpr]
  refine ⟨_, rfl, ?_⟩
  have hstep : Base (s.setProc me (pr.withFd fd none))
      (update gs me (exiting (pr.withFd fd none))) := by
    refine hbase.step_procs rfl rfl rfl rfl (fun q hq => update_of_ne hq ..) ?_ ?_ ?_
    · have heq : (exiting (pr.withFd fd none)).own (pr.withFd fd none) = owned s gs me := by
        rw [owned, hg, hpr, closingFd_own]
        exact Ghost.Plain.own ⟨rfl, rfl⟩ _
      rw [hnew, held_of_refs_eq gs me (by rw [hg]; rfl), heq, update_eq_self]
      exact hbase.table
    · refine (hbase.loc me).retable rfl rfl (by rw [hg]; rfl) (fun ip hip => absurd rfl hip)
        trivial (fun pr' h => ?_) ?_ rfl
      · rw [hnew]
        exact Option.some.inj h
      · rw [hnew]
        exact hlive
    · rw [hnew]
      exact hlive
  have hG' : Global κ _ (s.setProc me (pr.withFd fd none)) _ :=
    Global.retable hG (by rw [hg]; exact closingFd_quiet pr fd) (exiting_quiet _)
      rfl rfl rfl hstep
  exact hG'

/-- The loop of `exit`. -/
theorem closeAll_triple (fds : List (Fin nOfile)) (pr : Proc) :
    KTriple κ me (exiting pr) (closeAll me fds) (fun _ g' => ∃ pr', g' = exiting pr' ∧
        ∀ fd, pr'.ofile fd = none ∨ (fd ∉ fds ∧ pr'.ofile fd = pr.ofile fd)) := by
  induction fds generalizing pr with
  | nil => exact .ret ⟨pr, rfl, fun fd => .inr ⟨by simp, rfl⟩⟩
  | cons fd fds ih =>
    -- a descriptor that is not open after this round is not opened again
    have hcons {pr₁ pr' : Proc} (hfd : pr₁.ofile fd = none)
        (hne : ∀ fd', fd' ≠ fd → pr₁.ofile fd' = pr.ofile fd')
        (hall : ∀ fd', pr'.ofile fd' = none ∨ (fd' ∉ fds ∧ pr'.ofile fd' = pr₁.ofile fd'))
        (fd' : Fin nOfile) :
        pr'.ofile fd' = none ∨ (fd' ∉ fd :: fds ∧ pr'.ofile fd' = pr.ofile fd') := by
      rcases hall fd' with h | ⟨hmem, h⟩
      · exact .inl h
      · by_cases hf : fd' = fd
        · exact .inl (by rw [h, hf, hfd])
        · exact .inr ⟨by simp [hf, hmem], h.trans (hne fd' hf)⟩
    have hread : KTriple κ me (exiting pr) (.lift do return ((← get).proc me).ofile fd)
        (fun r g' => r = pr.ofile fd ∧ g' = exiting pr) :=
      read_of_triple fun s gs hG hg => by rw [(hG.base.loc me).proc pr (by rw [hg]; rfl)]
    refine hread.bind ?_
    rintro _ _ ⟨rfl, rfl⟩
    cases hfd : pr.ofile fd with
    | none =>
      refine (ih pr).mono ?_
      rintro _ _ ⟨pr', rfl, hall⟩
      exact ⟨pr', rfl, hcons hfd (fun _ _ => rfl) hall⟩
    | some f =>
      refine .seq _ (closeFile_triple hfd) fun _ => .seq _ (clearFd_triple pr fd) fun _ => ?_
      refine (ih _).mono ?_
      rintro _ _ ⟨pr', rfl, hall⟩
      exact ⟨pr', rfl, hcons (update_self ..)
        (fun fd' hf => update_of_ne hf ..) hall⟩

theorem sysExit_triple : KTriple κ me .begin (sysExit me) (fun _ g' => g' = .idle) := by
  intro old s gs hG
  have hself := update_self me begin gs
  have hbase : Base s (update (update gs me .begin) me
      (exiting (s.proc me))) :=
    (Global.base hG).ghost rfl (by rw [hself]; rfl) (by rw [hself]; rfl)
      (((Global.base hG).loc me).live (by rw [hself]; rfl)) (by rw [hself]; rfl)
      (fun ip hip => absurd rfl hip) trivial fun pr hpr => Option.some.inj hpr
  have hG' := Global.retable hG (by rw [hself]; exact begin_free.quiet)
    (exiting_quiet _) rfl rfl rfl hbase
  rw [update_idem] at hG'
  rw [sysExit, Logic.cwp_bind]
  refine (closeAll_triple (List.finRange nOfile) (s.proc me) old s gs hG').mono
    fun _ _ s₁ gs₁ hpost => ?_
  obtain ⟨_, ⟨pr, rfl, hall⟩, hG₁⟩ := hpost
  have hnone (fd : Fin nOfile) : pr.ofile fd = none :=
    (hall fd).resolve_right fun h => h.1 (List.mem_finRange fd)
  have hself₁ := update_self me (exiting pr) gs₁
  have hrec := Global.record hG₁ .beginOp
  rw [Logic.cwp_bind, Logic.cwp_lift, beginOp, wp_modify, Logic.cwp_bind, Logic.cwp_lift]
  simp only [wp_bind, wp_get, wp_pure]
  cases hcwd : ((s₁.record .beginOp).proc me).cwd with
  | none => exact Panic.noConfusion
  | some cwd =>
    have htake := hrec.base.takeCwd (by rw [hself₁]; rfl) (by rw [hself₁]; rfl) hcwd
    rw [hself₁] at htake
    have hgone : ({ exiting pr with moving := some none } : Ghost).Quiet :=
      ⟨rfl, rfl⟩
    have hG₂ := hrec.retable (by rw [hself₁]; exact exiting_quiet pr) (hgone.take cwd)
      rfl rfl rfl htake
    rw [update_idem] at hG₂
    have hend : KTriple κ me (({ exiting pr with moving := some none } : Ghost).take cwd) (do
        iput cwd
        .lift endOp
        .lift <| modify fun s => s.setProc me { s.proc me with cwd := none, state := .zombie }
        return (0 : ℤ)) (fun _ g' => g' = .idle) := by
      refine .seq { exiting pr with moving := some none } ?_ fun _ =>
        .seq _ (record_triple _) fun _ =>
          .seq _ (.lift fun s gs hG hg => ⟨.idle, rfl, ?_⟩) fun _ => .ret rfl
      · refine (iput_triple (g := ({ exiting pr with moving := some none } : Ghost).take cwd)
          rfl (fun _ => rfl) (take_refs_pos _ cwd)).mono ?_
        rintro _ _ ⟨rfl, -⟩
        rw [(hgone.take cwd).quiet_eq, drop_take]
      · have hpr : s.proc me = pr := ((Global.base hG).loc me).proc pr (by rw [hg]; rfl)
        have hexit : Base _ (update gs me .idle) :=
          (Global.base hG).exit (fun ip => by rw [hg]; rfl) (fun ip => by rw [hg]; rfl)
            (by rw [hg]) fun fd => by rw [hpr]; exact hnone fd
        exact Global.retable hG (by rw [hg]; exact hgone) ⟨rfl, rfl⟩
          rfl rfl rfl hexit
    exact hend _ _ gs₁ hG₂

/-! ### All calls -/

theorem Call.triple (c : Call P) :
    KTriple κ me .begin (c.prog me) (fun _ g' => g' = .begin ∨ g' = .idle) := by
  cases c with
  | link old new => exact (sysLink_triple old new).mono fun _ _ => .inl
  | unlink path => exact (sysUnlink_triple path).mono fun _ _ => .inl
  | «open» path omode => exact (sysOpen_triple path omode).mono fun _ _ => .inl
  | mkdir path => exact (makeNode_triple path (by decide) 0 0).mono fun _ _ => .inl
  | mknod path major minor => exact (makeNode_triple path (by decide) _ _).mono fun _ _ => .inl
  | chdir path => exact (sysChdir_triple path).mono fun _ _ => .inl
  | dup fd => exact (sysDup_triple fd).mono fun _ _ => .inl
  | read fd n input => exact (sysRead_triple fd n input).mono fun _ _ => .inl
  | write fd src => exact (sysWrite_triple fd src).mono fun _ _ => .inl
  | close fd => exact (sysClose_triple fd).mono fun _ _ => .inl
  | fstat fd => exact (sysFstat_triple fd).mono fun _ _ => .inl
  | fork child => exact (sysFork_triple child).mono fun _ _ => .inl
  | exit => exact sysExit_triple.mono fun _ _ => .inr
  | wait q => exact (sysWait_triple q).mono fun _ _ => .inl
  | exec path reads => exact (sysExec_triple path reads).mono fun _ _ => .inl

theorem Global.start (h : Global κ old s gs) (hidle : gs me = .idle)
    (hlive : (s.proc me).state = .live) : Global κ old s (update gs me .begin) :=
  h.retable (by rw [hidle]; exact ⟨rfl, rfl⟩) begin_free.quiet
    rfl rfl rfl (h.base.start hidle hlive)

theorem Global.finish (h : Global κ old s (update gs me .begin)) :
    Global κ old s (update gs me .idle) := by
  have hself := update_self me begin gs
  have hbase : Base s (update (update gs me .begin) me .idle) :=
    h.base.finish (fun ip => by rw [hself]; rfl) (fun ip => by rw [hself]; rfl)
      (by rw [hself]; exact ⟨rfl, rfl⟩)
  have hG := h.retable (by rw [hself]; exact begin_free.quiet)
    ⟨rfl, rfl⟩ rfl rfl rfl hbase
  rwa [update_idem] at hG

theorem Call.cwp (c : Call P) (h : Global κ old s gs)
    (hidle : gs me = .idle) (hlive : (s.proc me).state = .live) :
    (kernelLogic P κ).Cwp me (c.prog me) ((kernelLogic P κ).Done me) old s gs := by
  refine (c.triple old s gs (h.start hidle hlive)).mono fun _ _ s' gs' hpost => ?_
  obtain ⟨g', hg', hG'⟩ := hpost
  have hlabel : (kernelLogic P κ).Label .idle none := label_none
  rcases hg' with rfl | rfl
  · exact ⟨trivial, _, rfl, hlabel, Global.finish hG'⟩
  · exact ⟨trivial, _, rfl, hlabel, hG'⟩

/-- The programs that a process may begin: calls of live processes. -/
def Started (s : State P) (p : P) (prog : Kernel P ℤ) : Prop :=
  (s.proc p).state = .live ∧ ∃ c : Call P, prog = c.prog p

/-- No process is in a call. -/
def Rested (m : Sys (State P) Panic Slot Site ℤ P) : Prop :=
  m.panic = none ∧ ∀ p, m.thread p = none

end Dave.Fs
