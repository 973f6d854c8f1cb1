import Dave.Fs.Create

/-!
# Open files and the invariant of all processes

The calls on descriptors keep the invariant. While a call reads or writes the inode of a file, its
ghost says which file it uses; the file keeps its inode because the process keeps the descriptor.
When the last descriptor of a file is closed, the call takes over the reference to the inode.
-/

namespace Dave.Fs

open Ghost Function Interleave

variable {P : Type} [DecidableEq P] [Fintype P] {κ : Scope} {old : History} {me : P}
  {s s' : State P}
  {gs : P → Ghost} {ip jp : Slot} {g : Ghost} {sn : Snap} {fd : Fin nOfile} {f : Fin nFile}

/-! ### Steps on the tables -/

namespace Global

theorem retable (h : Global κ old s gs) (hquiet : (gs me).Quiet) (hquiet' : g.Quiet)
    (hsb : s'.sb = s.sb) (hview : s'.view = s.view) (hic : s'.icache = s.icache)
    (hbase : Base s' (update gs me g)) : Global κ old s' (update gs me g) :=
  h.of_view hsb hbase hview (fun ip _ => by rw [State.num, State.num, hic])
    (hquiet'.bears hquiet)

theorem setOff (h : Global κ old s gs) (hquiet : (gs me).Quiet) (f : Fin nFile) (off : Word) :
    Global κ old (s.setFile f { s.ftable f with off := off }) gs := by
  have hbase := h.base.setOff f off
  rw [← update_eq_self me gs] at hbase ⊢
  exact h.retable hquiet hquiet rfl rfl rfl hbase

end Global

omit [DecidableEq P] [Fintype P] in
theorem argfd_wp {E : Panic → Prop} {fd : ℤ} {Q : Option (Fin nOfile × Fin nFile) → State P → Prop}
    (hnone : Q none s) (hsome : ∀ i f, (s.proc me).ofile i = some f → Q (some (i, f)) s) :
    Wp E (argfd me fd) Q s := by
  simp only [argfd, wp_bind, wp_get]
  split_ifs with h
  · rw [wp_pure]
    cases hf : (s.proc me).ofile ⟨fd.toNat, toNat_lt_nOfile h⟩ with
    | none => exact hnone
    | some f => exact hsome _ f hf
  · exact hnone

omit [Fintype P] in
theorem fdalloc_wp {E : Panic → Prop} {Q : Option (Fin nOfile) → State P → Prop}
    (hnone : (∀ fd, (s.proc me).ofile fd ≠ none) → Q none s)
    (hsome : ∀ fd, (s.proc me).ofile fd = none →
      Q (some fd) (s.setProc me ((s.proc me).withFd fd (some f)))) :
    Wp E (fdalloc me f) Q s := by
  simp only [fdalloc, wp_bind, wp_get]
  cases hfind : (List.finRange nOfile).find? fun fd => (s.proc me).ofile fd = none with
  | none =>
    exact hnone fun fd => by simpa using List.find?_eq_none.mp hfind fd (List.mem_finRange fd)
  | some fd => exact hsome fd (by simpa using List.find?_some hfind)

omit [DecidableEq P] [Fintype P] in
theorem filealloc_wp {E : Panic → Prop} {Q : Option (Fin nFile) → State P → Prop}
    (hnone : (∀ f, (s.ftable f).ref ≠ 0) → Q none s)
    (hsome : ∀ f, (s.ftable f).ref = 0 → Q (some f) (s.setFile f { s.ftable f with ref := 1 })) :
    Wp E filealloc Q s := by
  simp only [filealloc, wp_bind, wp_get]
  cases hfind : (List.finRange nFile).find? fun f => (s.ftable f).ref = 0 with
  | none => exact hnone fun f => by simpa using List.find?_eq_none.mp hfind f (List.mem_finRange f)
  | some f => exact hsome f (by simpa using List.find?_some hfind)

theorem sysDup_triple (fd : ℤ) : KTriple κ me .begin (sysDup me fd) (fun _ g' => g' = .begin) := by
  refine .lift fun {old} s gs hG hg => ?_
  have hsame : Global κ old s (update gs me .begin) := by
    rwa [← hg, update_eq_self]
  rw [wp_bind]
  refine argfd_wp ⟨_, rfl, hsame⟩ fun i f hf => ?_
  simp only [wp_bind]
  refine fdalloc_wp (fun _ => ⟨_, rfl, hsame⟩) fun fd hfd => ?_
  simp only [filedup, wp_bind, wp_get]
  split_ifs
  · exact Panic.noConfusion
  refine ⟨_, rfl, ?_⟩
  have hbase := Global.base hG
  have hnew := hbase.newFd (by rw [hg]; rfl) (by rw [hg]; exact ⟨rfl, rfl⟩) hfd
    (.inr ⟨i, hf⟩) (by rw [hg]; rfl) (by rw [hg]; rfl) (.inl rfl)
  rw [hg] at hnew
  exact Global.retable hG (by rw [hg]; exact begin_free.quiet) begin_free.quiet
    rfl rfl rfl hnew

/-! ### Closing files -/

omit [DecidableEq P] [Fintype P] in
theorem filedrop_wp {E : Panic → Prop} {Q : Option File → State P → Prop} (hE : E .fileclose)
    (hmany : 1 < (s.ftable f).ref →
      Q none (s.setFile f { s.ftable f with ref := (s.ftable f).ref - 1 }))
    (hlast : (s.ftable f).ref = 1 →
      Q (some (s.ftable f)) (s.setFile f { s.ftable f with ref := 0, type := .none })) :
    Wp E (filedrop f) Q s := by
  simp only [filedrop, wp_bind, wp_get, wp_ite, wp_throw, wp_modify, wp_pure]
  split_ifs with hzero hmany'
  · exact hE
  · exact hmany (by omega)
  · exact hlast (by omega)

/-- The process gives up a descriptor: the `ftable.lock` section of `fileclose`. The descriptor has
been taken out of the process table, or will be. -/
theorem Global.filedrop (h : Global κ old s gs) (pr : Proc) (hquiet : (gs me).Quiet)
    (hquiet' : g.Quiet) (hfd : (owned s gs me).ofile fd = some f)
    (hown : g.own pr = (owned s gs me).withFd fd none) (hrefs : g.refs = (gs me).refs)
    (hlive : pr.state = .live) (hact : g.active = true) (hlocks : g.locks = (gs me).locks)
    (hnone : ∀ jp, g.locks jp = none) (huse : g.use = .none)
    (hpr : ∀ pr', g.proc = some pr' → pr = pr') :
    Wp (kernelLogic P κ).E (filedrop f) (fun r s' =>
      match r with
      | none => Global κ old s' (update gs me g)
      | some ff =>
        match ff.type with
        | .none => Global κ old s' (update gs me g)
        | .inode => Global κ old s' (update gs me (g.take ff.ip))) (s.setProc me pr) := by
  have hself (x : File) : ((s.setProc me pr).setFile f x).proc me = pr := update_self ..
  have hother (x : File) (q : P) (hq : q ≠ me) :
      ((s.setProc me pr).setFile f x).proc q = s.proc q := update_of_ne hq ..
  have hloc (x : File) {g' : Ghost} (hl' : g'.locks = g.locks) (hu' : g'.use = .none)
      (hp' : g'.proc = g.proc) (ha' : g'.active = true) :
      LocalOk ((s.setProc me pr).setFile f x) me g' := by
    refine (h.base.loc me).retable rfl rfl (hl'.trans hlocks) (fun ip hip => ?_) ?_
      (fun pr' hpr' => ?_) ?_ ha'
    · exact absurd (by rw [hl', hnone]) hip
    · rw [hu']
      trivial
    · rw [hself]
      exact hpr pr' (hp' ▸ hpr')
    · rw [hself]
      exact hlive
  refine filedrop_wp Panic.noConfusion (fun hmany => ?_) fun hone => ?_
  · refine h.retable hquiet hquiet' rfl rfl rfl (h.base.closeFd hfd hmany rfl rfl rfl (hother _)
      rfl ?_ hrefs ?_ (hloc _ rfl huse rfl hact))
    · rw [hself]
      exact hown
    · rw [hself]
      exact hlive
  · have hclose {g' : Ghost} (hq' : g'.Quiet) (hown' : g'.own pr = g.own pr)
        (hl' : g'.locks = g.locks) (hu' : g'.use = .none) (hp' : g'.proc = g.proc)
        (ha' : g'.active = true)
        (hheld : held (update gs me g') = if (s.ftable f).type = .inode then
          update (held gs) (s.ftable f).ip (held gs (s.ftable f).ip + 1) else held gs) :
        Global κ old ((s.setProc me pr).setFile f
          { s.ftable f with ref := 0, type := .none })
          (update gs me g') := by
      refine h.retable hquiet hq' rfl rfl rfl (h.base.closeLast hfd hone rfl rfl rfl (hother _) rfl
        ?_ hheld ?_ (hloc _ hl' hu' hp' ha'))
      · rw [hself, hown']
        exact hown
      · rw [hself]
        exact hlive
    simp only [State.setProc_ftable]
    cases ht : (s.ftable f).type with
    | none =>
      refine hclose hquiet' rfl rfl huse rfl hact ?_
      rw [if_neg (by simp [ht]), held_of_refs_eq gs me hrefs]
    | inode =>
      refine hclose (hquiet'.take _) rfl rfl huse rfl hact ?_
      rw [if_pos ht]
      refine held_setRefs gs me (by rw [← hrefs]; rfl) ?_
      rw [hrefs]
      omega

theorem fileclose_cwp (hact : g.active = true) (hquiet : g.Quiet)
    (h : Wp (kernelLogic P κ).E (filedrop f) (fun r s' =>
      match r with
      | none => Global κ old s' (update gs me g)
      | some ff =>
        match ff.type with
        | .none => Global κ old s' (update gs me g)
        | .inode => Global κ old s' (update gs me (g.take ff.ip))) s) :
    (kernelLogic P κ).Cwp me (fileclose f)
      (fun _ old s gs => ∃ g', g' = g ∧ Global κ old s (update gs me g')) old s gs := by
  rw [fileclose, Logic.cwp_bind, Logic.cwp_lift]
  refine h.mono fun r s' hr => ?_
  cases r with
  | none => exact ⟨g, rfl, hr⟩
  | some ff =>
    cases ht : ff.type with
    | none =>
      simp only [ht] at hr ⊢
      exact ⟨g, rfl, hr⟩
    | inode =>
      simp only [ht] at hr ⊢
      have hput : KTriple κ me (g.take ff.ip) (do
          .lift beginOp
          iput ff.ip
          .lift endOp) (fun _ g' => g' = g) := by
        have hquiet' := hquiet.take ff.ip
        refine .seq _ (record_triple _) fun _ => .seq g ?_ fun _ => record_triple _
        refine (iput_triple (g := g.take ff.ip) hact (fun _ => hquiet'.fresh)
          (take_refs_pos g ff.ip)).mono ?_
        rintro _ _ ⟨rfl, -⟩
        rw [hquiet'.quiet_eq, drop_take]
      exact hput old s' gs hr

theorem sysClose_triple (fd : ℤ) :
    KTriple κ me .begin (sysClose me fd) (fun _ g' => g' = .begin) := by
  intro old s gs hG
  have hfree := begin_free
  have hself := update_self me begin gs
  rw [sysClose, Logic.cwp_bind, Logic.cwp_lift]
  refine argfd_wp ⟨_, rfl, hG⟩ fun i f hf => ?_
  rw [Logic.cwp_bind, Logic.cwp_lift, setOfile, wp_modify, Logic.cwp_bind]
  have howned : owned s (update gs me begin) me = s.proc me := by
    rw [owned, hself, hfree.plain.own]
  have hdrop := Global.filedrop (g := .begin) hG ((s.proc me).withFd i none)
    (by rw [hself]; exact hfree.quiet) hfree.quiet (by rw [howned]; exact hf)
    (by rw [howned, hfree.plain.own]) (by rw [hself])
    (((Global.base hG).loc me).live (by rw [hself]; rfl)) rfl (by rw [hself]) hfree.locks rfl
    fun pr' hpr' => by simp [begin, idle] at hpr'
  simp only [update_idem] at hdrop
  exact (fileclose_cwp rfl hfree.quiet hdrop).mono fun _ _ _ _ hpost => hpost

/-! ### Using files -/

/-- The call uses the file `f`, with the descriptor `fd`. -/
def Ghost.using (fd : Fin nOfile) (f : Fin nFile) (ip : Slot) (writable : Bool) : Ghost :=
  { Ghost.begin with use := .inUse fd f ip writable }

section Using

variable {w : Bool}

theorem Ghost.using_quiet : (Ghost.using fd f ip w).Quiet := ⟨rfl, rfl⟩

theorem Ghost.using_refers : (Ghost.using fd f ip w).Refers ip := .inr ⟨fd, f, w, rfl⟩

theorem Ghost.using_unlock (o : Option (Option Snap)) :
    ((Ghost.using fd f ip w).setLock ip o).quiet.setLock ip none = Ghost.using fd f ip w := by
  rw [(using_quiet.setLock ip o).quiet_eq, setLock_setLock]
  exact setLock_of_eq rfl

theorem Global.use (h : Global κ old s (update gs me .begin))
    (hfd : (s.proc me).ofile fd = some f) (ht : (s.ftable f).type = .inode) :
    Global κ old s (update gs me
      (Ghost.using fd f (s.ftable f).ip (s.ftable f).writable)) := by
  have hself := update_self me Ghost.begin gs
  have hbase : Base s (update (update gs me .begin) me
      (Ghost.using fd f (s.ftable f).ip (s.ftable f).writable)) := by
    refine h.base.ghost rfl (by rw [hself]; rfl) (by rw [hself]; rfl)
      ((h.base.loc me).live (by rw [hself]; rfl)) (by rw [hself]; rfl)
      (fun ip hip => absurd rfl hip) ?_ fun pr hpr => ?_
    · exact ⟨hfd, ht, rfl, rfl⟩
    · simp [Ghost.using, Ghost.begin, Ghost.idle] at hpr
  have hG := h.retable (by rw [hself]; exact Ghost.begin_free.quiet) Ghost.using_quiet rfl rfl rfl
    hbase
  rwa [update_idem] at hG

theorem using_ret {α : Type} {a : α} {Q : α → Ghost → Prop} (hQ : Q a .begin) :
    KTriple κ me (Ghost.using fd f ip w) (.ret a : Kernel P α) Q := by
  refine .ghost .begin (fun s gs hG hg => ?_) (.ret hQ)
  have hbase : Base s (update gs me .begin) :=
    (Global.base hG).ghost rfl (by rw [hg]; rfl) (by rw [hg]; rfl)
      (((Global.base hG).loc me).live (by rw [hg]; rfl)) (by rw [hg]; rfl)
      (fun ip hip => absurd rfl hip) trivial fun pr hpr => by
        simp [begin, idle] at hpr
  exact Global.retable hG (by rw [hg]; exact using_quiet) begin_free.quiet rfl rfl rfl
    hbase

theorem setOff_triple (hquiet : g.Quiet) (off : File → Word) :
    KTriple κ me g (.lift <| modify fun s =>
      s.setFile f { s.ftable f with off := off (s.ftable f) }) (fun _ g' => g' = g) :=
  .lift fun s gs hG hg => ⟨g, rfl, by
    rw [← hg, update_eq_self]
    exact Global.setOff hG (by rwa [hg]) f _⟩

end Using

/-- The lock is given back and taken again, as for devices. -/
theorem relock_triple {α : Type} (hact : g.active = true) (hquiet : g.Quiet) (hr : g.Refers ip)
    (hnone : ∀ jp, g.locks jp = none) (a : α) :
    KTriple κ me (g.setLock ip (some (some sn))) (do
      iunlock me ip
      ilock ip .ilock
      return a) (fun _ g' => ∃ sn', g' = g.setLock ip (some (some sn'))) := by
  refine .seq _ (iunlock_quiet (g := g.setLock ip (some (some sn))) hact
    (fun _ => hquiet.fresh) (by simp)) fun _ => ?_
  rw [(hquiet.setLock ip _).quiet_eq, setLock_setLock, setLock_of_eq (hnone ip)]
  refine (ilock_triple hact hr).bind ?_
  rintro _ _ ⟨-, sn', -, -, -, rfl⟩
  exact .ret ⟨sn', rfl⟩

/-- A device is read without the lock, so that the snapshot may be another one afterwards. -/
theorem readi_triple (hact : g.active = true) (hquiet : g.Quiet) (hr : g.Refers ip)
    (hnone : ∀ jp, g.locks jp = none) (off n : Word) (input : Option (List Byte)) :
    KTriple κ me (g.setLock ip (some (some sn))) (readi me ip off n input)
      (fun _ g' => ∃ sn', g' = g.setLock ip (some (some sn'))) := by
  have hl : (g.setLock ip (some (some sn))).locks ip = some (some sn) := update_self ..
  refine (readFields_triple hl).bind ?_
  rintro _ _ ⟨rfl, rfl⟩
  split_ifs with hdev hdriver
  · exact relock_triple hact hquiet hr hnone _
  · exact .ret ⟨sn, rfl⟩
  · refine .lift fun s gs hG hg => ?_
    have hload := (Global.base hG).loaded (by rw [hg, hl])
    rw [wp_of_ok (readData_eq (Global.base hG).store.disk hload
      (by rw [Global.locked_d hG hg hl]; exact hdev) off n)]
    exact ⟨_, ⟨sn, rfl⟩, by rwa [← hg, update_eq_self]⟩

theorem sysFstat_triple (fd : ℤ) :
    KTriple κ me .begin (sysFstat me fd) (fun _ g' => g' = .begin) := by
  intro old s gs hG
  rw [sysFstat, Logic.cwp_bind, Logic.cwp_lift]
  refine argfd_wp ⟨_, rfl, hG⟩ fun i f hf => ?_
  rw [Logic.cwp_bind, Logic.cwp_lift]
  simp only [wp_bind, wp_get, wp_pure]
  cases ht : (s.ftable f).type with
  | none => exact ⟨_, rfl, hG⟩
  | inode =>
    have hstat {ip : Slot} {w : Bool} : KTriple κ me (Ghost.using i f ip w) (do
        ilock ip .ilock
        iunlock me ip
        return (0 : ℤ)) (fun _ g' => g' = .begin) := by
      refine (ilock_triple rfl using_refers).bind ?_
      rintro _ _ ⟨-, sn, -, -, -, rfl⟩
      refine .seq _ (iunlock_quiet rfl (fun _ => rfl) (by simp)) fun _ => ?_
      rw [using_unlock]
      exact using_ret rfl
    exact hstat old s gs (Global.use hG hf ht)

theorem fileread_cwp (hG : Global κ old s (update gs me .begin))
    (hf : (s.proc me).ofile fd = some f) (n : Word) (input : Option (List Byte)) :
    (kernelLogic P κ).Cwp me (fileread me f n input)
      (fun _ old s gs => ∃ g', g' = begin ∧ Global κ old s (update gs me g')) old s
      gs := by
  rw [fileread, Logic.cwp_bind, Logic.cwp_lift]
  simp only [wp_bind, wp_get, wp_pure]
  split_ifs with hread
  · exact ⟨_, rfl, hG⟩
  cases ht : (s.ftable f).type with
  | none => exact Panic.noConfusion
  | inode =>
    have hrest {ip : Slot} {w : Bool} : KTriple κ me (Ghost.using fd f ip w) (do
        ilock ip .ilock
        let off ← .lift do return ((← get).ftable f).off
        let r ← readi me ip off n input
        .lift <| modify fun s =>
          s.setFile f { s.ftable f with
            off := (s.ftable f).off + BitVec.ofNat 32 (r.getD []).length }
        iunlock me ip
        return r) (fun _ g' => g' = .begin) := by
      refine (ilock_triple rfl using_refers).bind ?_
      rintro _ _ ⟨-, sn, -, -, -, rfl⟩
      refine .seq _ (read_triple _) fun off => ?_
      refine (readi_triple rfl using_quiet using_refers (fun _ => rfl) off n input).bind
        ?_
      rintro r _ ⟨sn', rfl⟩
      refine .seq _ (setOff_triple (using_quiet.setLock ip _) fun ff =>
        ff.off + BitVec.ofNat 32 (r.getD []).length) fun _ => ?_
      refine .seq _ (iunlock_quiet rfl (fun _ => rfl) (by simp)) fun _ => ?_
      rw [using_unlock]
      exact using_ret rfl
    exact hrest old s gs (Global.use hG hf ht)

theorem sysRead_triple (fd : ℤ) (n : Word) (input : Option (List Byte)) :
    KTriple κ me .begin (sysRead me fd n input) (fun _ g' => g' = .begin) := by
  intro old s gs hG
  rw [sysRead, Logic.cwp_bind, Logic.cwp_lift]
  refine argfd_wp ⟨_, rfl, hG⟩ fun i f hf => ?_
  dsimp only
  rw [Logic.cwp_bind]
  refine (fileread_cwp hG hf n input).mono fun r _ s' gs' hpost => ?_
  obtain ⟨_, rfl, hG'⟩ := hpost
  cases r <;> exact ⟨_, rfl, hG'⟩

/-! ### Writing -/

theorem Global.stored (h : Global κ old s gs) (hg : gs me = g) (hact : g.active = true)
    (hl : g.locks ip = some (some sn)) (hdir : sn.d.type ≠ tDir)
    {new : List Byte} (hst : Stored ip s s' new) :
    Global κ old s' (update gs me (g.setLock ip (some (some (s'.snap ip))))) := by
  have hl' : (gs me).locks ip = some (some sn) := by rw [hg, hl]
  have hbase := h.base
  have hsnap := (hbase.loc me).snap ip sn hl'
  have hpos := hbase.ref_pos_of_lock (((hbase.loc me).lock ip).mpr (by rw [hl']; simp))
  have hne : (s.view.dino (s.icache ip).inum).type ≠ tDir := by rwa [hsnap.dino]
  have htype : (s'.view.dino (s.icache ip).inum).type = (s.view.dino (s.icache ip).inum).type := by
    rw [hst.fields]
  refine h.change hg hact hl hst.touch (hst.storeOk hbase.store hpos) (hst.dirsOk hbase.dirs hne)
    htype hst.dino_of_ne hst.bytes_of_ne (.inr ?_)
  rw [State.dir, State.dir, htype]
  exact .file _ _ _ hne

/-- What is written is not a directory. -/
theorem writei_triple (hact : g.active = true) (hquiet : g.Quiet)
    (hr : g.Refers ip) (hnone : ∀ jp, g.locks jp = none)
    (hdir : ∀ {old : History} s gs, Global κ old s gs → gs me = g.setLock ip (some (some sn)) →
      s.typ ip ≠ tDir)
    {src : List Byte} (hsrc : src.length < 2 ^ 32) (off : Word) :
    KTriple κ me (g.setLock ip (some (some sn))) (writei me ip src off)
      (fun _ g' => ∃ sn', g' = g.setLock ip (some (some sn'))) := by
  have hl : (g.setLock ip (some (some sn))).locks ip = some (some sn) := update_self ..
  refine (readFields_triple hl).bind ?_
  rintro _ _ ⟨rfl, rfl⟩
  split_ifs with hdev hdriver
  · exact relock_triple hact hquiet hr hnone _
  · exact .ret ⟨sn, rfl⟩
  · refine .lift fun s gs hG hg => ?_
    have hbase := Global.base hG
    have hload := hbase.loaded (by rw [hg, hl])
    have hsnap := (hbase.loc me).snap ip sn (by rw [hg, hl])
    have hne : sn.d.type ≠ tDir := by
      rw [← hsnap.dino]
      exact hdir s gs hG hg
    refine (writeData_spec hbase.store.disk hload (by rw [Global.locked_d hG hg hl]; exact hdev)
      hsrc fun _ _ => Panic.noConfusion).mono fun r s' hpost => ?_
    split_ifs at hpost
    · obtain ⟨-, hst⟩ := hpost
      have hG' := Global.stored hG hg hact hl hne hst
      rw [setLock_setLock] at hG'
      exact ⟨_, ⟨_, rfl⟩, hG'⟩
    · obtain ⟨-, rfl⟩ := hpost
      exact ⟨_, ⟨sn, rfl⟩, by rwa [← hg, update_eq_self]⟩

/-- Each chunk is a transaction of its own, in which the inode is locked. -/
theorem filewriteLoop_triple (fuel : ℕ) (src : List Byte) :
    KTriple κ me (Ghost.using fd f ip true) (filewriteLoop me f fuel src)
      (fun _ g' => g' = Ghost.using fd f ip true) := by
  induction fuel generalizing src with
  | zero => exact .ret rfl
  | succ fuel ih =>
    rw [filewriteLoop]
    split_ifs with hnil
    · exact .ret rfl
    refine .seq _ (record_triple _) fun _ => ?_
    refine (read_of_triple (R := fun jp => jp = ip) fun s gs hG hg => ?_).bind ?_
    · have huse := (hG.base.loc me).use
      rw [hg] at huse
      exact huse.2.2.1
    rintro _ _ ⟨rfl, rfl⟩
    refine (ilock_triple rfl using_refers).bind ?_
    rintro _ _ ⟨-, sn, -, -, -, rfl⟩
    refine .seq _ (read_triple _) fun off => ?_
    have hsrc : (src.take maxWrite).length < 2 ^ 32 :=
      (List.length_take_le _ _).trans_lt (by decide)
    refine (writei_triple rfl using_quiet using_refers (fun _ => rfl)
      (fun s gs hG hg => ?_) hsrc off).bind ?_
    · -- a file that can be written is not a directory
      have huse := (hG.base.loc me).use
      rw [hg] at huse
      obtain ⟨-, ht, hip, hw⟩ := huse
      have htype := (hG.base.table.file_type f ht).2 hw
      rwa [hip] at htype
    rintro r _ ⟨sn', rfl⟩
    refine .seq _ (setOff_triple (using_quiet.setLock _ _) fun ff =>
      ff.off + BitVec.ofNat 32 (r.getD 0)) fun _ => ?_
    refine .seq _ (iunlock_quiet rfl (fun _ => rfl) (by simp)) fun _ => ?_
    rw [using_unlock]
    refine .seq _ (record_triple _) fun _ => ?_
    cases r with
    | none => exact .ret rfl
    | some n =>
      dsimp only
      split_ifs
      · exact .fail Panic.noConfusion
      · exact ih _

theorem sysWrite_triple (fd : ℤ) (src : List Byte) :
    KTriple κ me .begin (sysWrite me fd src) (fun _ g' => g' = .begin) := by
  intro old s gs hG
  rw [sysWrite, Logic.cwp_bind, Logic.cwp_lift]
  refine argfd_wp ⟨_, rfl, hG⟩ fun i f hf => ?_
  dsimp only
  rw [filewrite, Logic.cwp_bind, Logic.cwp_lift]
  simp only [wp_bind, wp_get, wp_pure]
  split_ifs with hwrite
  · exact ⟨_, rfl, hG⟩
  cases ht : (s.ftable f).type with
  | none => exact Panic.noConfusion
  | inode =>
    have hw : (s.ftable f).writable = true := by simpa using hwrite
    have huse := Global.use hG hf ht
    rw [hw] at huse
    have hloop : KTriple κ me (Ghost.using i f (s.ftable f).ip true)
        (do return if ← filewriteLoop me f src.length src then (src.length : ℤ) else -1)
        (fun _ g' => g' = .begin) :=
      .seq _ (filewriteLoop_triple _ _) fun _ => using_ret rfl
    exact hloop old s gs huse

/-! ### Opening files -/

/-- What `sys_open` has found: an inode that is locked, which is a directory only if the file is
opened for reading. -/
def OpenPost (omode : Word) : Option Slot → Ghost → Prop
  | none, g => g = .begin
  | some ip, g => ∃ sn, sn.d.type ≠ 0 ∧ (sn.d.type = tDir → omode = 0) ∧
    g = (Ghost.begin.take ip).setLock ip (some (some sn))

theorem openInode_triple (path : Str) (omode : Word) :
    KTriple κ me .begin (openInode me path omode) (OpenPost omode) := by
  rw [openInode]
  split_ifs with hcreate
  · refine (create_triple path begin_free (by decide) 0 0).mono ?_
    rintro (_ | ip) g' hg'
    · exact hg'
    · obtain ⟨sn, ht, rfl⟩ := hg'
      exact ⟨sn, by rw [ht]; decide, fun hdir => absurd (ht.symm.trans hdir) (by decide), rfl⟩
  · refine (namei_triple path begin_free).bind ?_
    rintro (_ | ip) g' hg'
    · exact .ret hg'
    obtain rfl := hg'
    have hfree := begin_free.take ip
    have hr := begin.take_refs_pos ip
    refine (ilock_triple hfree.active (.inl hr)).bind ?_
    rintro _ _ ⟨-, sn, ht, -, -, rfl⟩
    have hl : ((begin.take ip).setLock ip (some (some sn))).locks ip = some (some sn) :=
      update_self ..
    refine (readFields_triple hl).bind ?_
    rintro _ _ ⟨rfl, rfl⟩
    split_ifs with hdir
    · exact .seq _ (iunlockput_free hfree hr) fun _ => .ret (drop_take ..)
    · exact .ret ⟨sn, ht, fun h => by_contra fun h0 => hdir ⟨h, h0⟩, rfl⟩

/-- An inode is locked, and a file for it has been allocated. -/
def Ghost.opened (ip : Slot) (sn : Snap) (fd : Fin nOfile) (f : Fin nFile) : Ghost :=
  { (Ghost.begin.take ip).setLock ip (some (some sn)) with use := .opened fd f }

theorem Global.publish (h : Global κ old s gs)
    (hg : gs me = (opened ip sn fd f).setLock ip none) {x : File} (ht : x.type = .inode)
    (hip : x.ip = ip) (href : x.ref = (s.ftable f).ref) (hne : s.typ ip ≠ 0)
    (hw : x.writable = true → s.typ ip ≠ tDir) :
    Global κ old (s.setFile f x) (update gs me .begin) := by
  have hlocks (jp : Slot) : (gs me).locks jp = none := by
    rw [hg, opened, setLock_locks]
    by_cases hj : jp = ip
    · rw [hj, update_self]
    · rw [update_of_ne hj]
      exact update_of_ne hj ..
  have hbase := h.base.publish (by rw [hg]; rfl) (by rw [hg]; rfl) ht hip href
    (by rw [hg]; exact take_refs_pos _ ip) hlocks hne hw
  have heq : { (gs me).setRefs ip ((gs me).refs ip - 1) with use := .none } = begin := by
    have hdrop := drop_take begin ip
    have hunlock : ((begin.take ip).setLock ip (some (some sn))).setLock ip none =
        begin.take ip := by
      rw [setLock_setLock]
      exact setLock_of_eq rfl
    rw [hg]
    calc _ = { ((((begin.take ip).setLock ip (some (some sn))).setLock ip none).drop ip) with
            use := .none } := rfl
      _ = begin := by
        rw [hunlock, hdrop]
        rfl
  rw [heq] at hbase
  have hquiet : (gs me).Quiet := by
    rw [hg]
    exact ⟨rfl, rfl⟩
  exact h.retable hquiet begin_free.quiet rfl rfl rfl hbase

/-- The descriptor gets its inode, after the lock has been given back. -/
theorem publish_triple {x : File → File} (ht : ∀ ff, (x ff).type = .inode)
    (hip : ∀ ff, (x ff).ip = ip) (href : ∀ ff, (x ff).ref = ff.ref) (hne : sn.d.type ≠ 0)
    (hw : ∀ ff, (x ff).writable = true → sn.d.type ≠ tDir) :
    KTriple κ me (opened ip sn fd f) (do
      iunlock me ip
      .lift endOp
      .lift <| modify fun s => s.setFile f (x (s.ftable f))
      return (fd : ℤ)) (fun _ g' => g' = .begin) := by
  intro old s gs hG
  rw [Logic.cwp_bind, iunlock, Logic.cwp_bind, Logic.cwp_lift]
  simp only [wp_bind, wp_get]
  split_ifs
  · exact Panic.noConfusion
  -- from here on nobody else can act, and the lock still protects the type
  refine ⟨Ghost.opened ip sn fd f, label_none, hG, fun _ s' gs' hG' hg' => ?_⟩
  have hl : (gs' me).locks ip = some (some sn) := by
    rw [hg']
    exact update_self ..
  have hsnap := ((Global.base hG').loc me).snap ip sn hl
  have hrel := (Global.release hG' hg' rfl (by rw [← hg', hl]; simp)).record .endOp
  have htyp : (((s'.setInode ip { s'.icache ip with lock := none }).record .endOp)).typ ip =
      sn.d.type := by
    rw [← hsnap.dino]
    change (s'.view.dino
      (update s'.icache ip { s'.icache ip with lock := none } ip).inum).type = _
    rw [update_self]
  have hpub := hrel.publish (update_self ..) (ht _) (hip _) (href _)
    (by rw [htyp]; exact hne) (by rw [htyp]; exact hw _)
  rw [update_idem] at hpub
  exact ⟨_, rfl, hpub⟩

theorem sysOpen_triple (path : Option Str) (omode : Word) :
    KTriple κ me .begin (sysOpen me path omode) (fun _ g' => g' = .begin) := by
  cases path with
  | none => exact .ret rfl
  | some path =>
    refine .seq _ (record_triple _) fun _ => ?_
    refine (openInode_triple path omode).bind ?_
    rintro (_ | ip) g' hg'
    · exact hg' ▸ endWith_triple _
    obtain ⟨sn, hne, hdir, rfl⟩ := hg'
    have hfree := begin_free.take ip
    have hbad : KTriple κ me ((begin.take ip).setLock ip (some (some sn))) (do
        iunlockput me ip
        endWith (-1)) (fun _ g' => g' = .begin) := by
      refine .seq _ (iunlockput_free hfree (begin.take_refs_pos ip)) fun _ => ?_
      rw [drop_take]
      exact endWith_triple _
    intro old s gs hG
    have hself := update_self me ((begin.take ip).setLock ip (some (some sn))) gs
    rw [Logic.cwp_bind, Logic.cwp_lift]
    refine filealloc_wp (fun _ => hbad old s gs hG) fun f hf => ?_
    dsimp only
    rw [Logic.cwp_bind, Logic.cwp_lift]
    refine fdalloc_wp (fun _ => ?_) fun fd hfd => ?_
    · -- the file is given back as it was
      dsimp only
      rw [Logic.cwp_bind, fileclose, Logic.cwp_bind, Logic.cwp_lift]
      have hone : ((s.setFile f { s.ftable f with ref := 1 }).ftable f).ref = 1 := by
        rw [State.setFile_ftable, update_self]
      refine filedrop_wp Panic.noConfusion (fun hmany => absurd hmany (by rw [hone]; omega))
        fun _ => ?_
      have htype : (s.ftable f).type = .none := (Global.base hG).table.none_of_zero f hf
      have hback : (s.setFile f { s.ftable f with ref := 1 }).setFile f
          { (s.setFile f { s.ftable f with ref := 1 }).ftable f with ref := 0, type := .none } =
          s := by
        rw [State.setFile_ftable, update_self, State.setFile, State.setFile,
          update_idem, ← hf, ← htype, update_eq_self]
      rw [hback, State.setFile_ftable, update_self]
      simp only [htype]
      exact hbad old s gs hG
    · have hbase := (Global.base hG).newFd (f := f) (by rw [hself]; rfl)
        (by rw [hself]; exact ⟨rfl, rfl⟩) hfd (.inl hf) (by rw [hself]; rfl) (by rw [hself]; rfl)
        (.inr ⟨hf, rfl⟩)
      rw [hself] at hbase
      rw [hf] at hbase
      have hopen : Global κ _ ((s.setFile f { s.ftable f with ref := 1 }).setProc me
          ((s.proc me).withFd fd (some f))) _ :=
        Global.retable hG (by rw [hself]; exact hfree.quiet.setLock ip _)
          (⟨rfl, rfl⟩ : (opened ip sn fd f).Quiet) rfl rfl rfl hbase
      rw [update_idem] at hopen
      refine publish_triple (x := fun ff => { ff with
        type := .inode
        ip := ip
        off := 0
        readable := omode &&& oWronly = 0
        writable := omode &&& oWronly ≠ 0 ∨ omode &&& oRdwr ≠ 0 }) (fun _ => rfl) (fun _ => rfl)
        (fun _ => rfl) hne (fun _ hw ht => ?_) _ _ gs hopen
      rw [hdir ht] at hw
      simp at hw

end Dave.Fs
