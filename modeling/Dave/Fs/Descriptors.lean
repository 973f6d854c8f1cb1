import Dave.Fs.Holding

/-!
# Files and current directories of the processes

The operations on the file table and the process table keep the invariant of `Dave.Fs.Holding`.
-/

namespace Dave.Fs

open Ghost Function

variable {P : Type} {E : Panic → Prop} {s s' s'' : State P} {ip jp dp : Slot} {g : Ghost}

/-- Nothing of the process table has been taken over. -/
def Ghost.Plain (g : Ghost) : Prop := g.moving = none ∧ g.closing = none

theorem Ghost.Plain.own (h : g.Plain) (pr : Proc) : g.own pr = pr := by
  simp [Ghost.own, h.1, h.2]

theorem Use.Ok.of_ofile {u : Use} {pr pr' : Proc} (h : u.Ok s pr)
    (ho : ∀ fd, pr'.ofile fd = pr.ofile fd) (hft : s'.ftable = s.ftable) : u.Ok s' pr' := by
  match u with
  | .none => trivial
  | .opened fd f =>
    rw [Use.Ok, hft, ho]
    exact h
  | .inUse fd f ip w =>
    rw [Use.Ok, hft, ho]
    exact h

theorem LocalOk.retable {me : P} {g₀ : Ghost} (h : LocalOk s me g₀) (hview : s'.view = s.view)
    (hic : s'.icache = s.icache) (hlocks : g.locks = g₀.locks)
    (hrefers : ∀ ip, g.locks ip ≠ none → g.Refers ip) (huse : g.use.Ok s' (g.own (s'.proc me)))
    (hproc : ∀ pr, g.proc = some pr → s'.proc me = pr) (hlive : (s'.proc me).state = .live)
    (hact : g.active = true) : LocalOk s' me g where
  lock ip := by
    rw [hic, hlocks]
    exact h.lock ip
  refers := hrefers
  snap ip sn hsn := by
    rw [hlocks] at hsn
    obtain ⟨h1, h2, h3, h4⟩ := h.snap ip sn hsn
    exact ⟨hic ▸ h1, hic ▸ h2, by rw [hic, hview, h3], by rw [hic, hview, h4]⟩
  use := huse
  proc := hproc
  live _ := hlive
  idle hf := by simp [hact] at hf

/-- The ghost of a process at the beginning of a call. -/
def Ghost.begin : Ghost := { Ghost.idle with active := true }

theorem LocalOk.of_begin {p : P} (h : ∀ ip, (s.icache ip).lock ≠ some p)
    (hlive : (s.proc p).state = .live) : LocalOk s p .begin where
  lock ip := iff_of_false (h ip) (not_not.mpr rfl)
  refers ip hip := absurd rfl hip
  snap ip sn hsn := by simp [Ghost.begin, Ghost.idle] at hsn
  use := trivial
  proc pr hpr := by simp [Ghost.begin, Ghost.idle] at hpr
  live _ := hlive
  idle hf := by simp [Ghost.begin] at hf

theorem LocalOk.of_idle {p : P} (h : ∀ ip, (s.icache ip).lock ≠ some p) : LocalOk s p .idle where
  lock ip := iff_of_false (h ip) (not_not.mpr rfl)
  refers ip hip := absurd rfl hip
  snap ip sn hsn := by simp [Ghost.idle] at hsn
  use := trivial
  proc pr hpr := by simp [Ghost.idle] at hpr
  live hf := by simp [Ghost.idle] at hf
  idle _ := rfl

variable [Fintype P]

theorem TableOk.two_le {own : P → Proc} {loc : Slot → ℕ} (h : TableOk s own loc) {p q : P}
    (hpq : p ≠ q) {fd fd' : Fin nOfile} {f : Fin nFile} (hp : (own p).ofile fd = some f)
    (hq : (own q).ofile fd' = some f) : 2 ≤ (s.ftable f).ref := by
  classical
  have h1 := fdRefs_pos_of_ofile hp
  have h2 := fdRefs_pos_of_ofile hq
  have hsum : ∑ r ∈ {p, q}, (own r).fdRefs f ≤ fdRefs own f :=
    Finset.sum_le_sum_of_subset (Finset.subset_univ _)
  rw [Finset.sum_pair hpq] at hsum
  rw [h.fds]
  omega

namespace Base

variable [DecidableEq P] {gs : P → Ghost} {me : P}

variable {fd : Fin nOfile} {f : Fin nFile}

variable (h : Base s gs)

include h

theorem step_table (hsb : s'.sb = s.sb) (hview : s'.view = s.view)
    (hic : s'.icache = s.icache) (hproc : ∀ q, q ≠ me → s'.proc q = s.proc q)
    (htable : TableOk s' (update (owned s gs) me (g.own (s'.proc me)))
      (held (update gs me g)))
    (hfile : ∀ q, q ≠ me → ∀ fd f, (owned s gs q).ofile fd = some f →
      (s'.ftable f).type = (s.ftable f).type ∧ (s'.ftable f).ip = (s.ftable f).ip ∧
        (s'.ftable f).writable = (s.ftable f).writable ∧
        ((s.ftable f).ref = 1 → (s.ftable f).type = .none → (s'.ftable f).ref = 1))
    (hme : LocalOk s' me g) (hlive : (s'.proc me).state = .live) :
    Base s' (update gs me g) := by
  refine h.step (h.store.congr hsb hview hic) (h.dirs.congr hsb hview) ?_ hme
    (fun q hq => ⟨hproc q hq, fun jp => by rw [hic], fun jp _ hv => ?_, hfile q hq⟩) fun p hp => ?_
  · have hown : owned s' (update gs me g) =
        update (owned s gs) me (g.own (s'.proc me)) := by
      funext q
      by_cases hq : q = me
      · subst hq
        rw [update_self, owned, update_self]
      · rw [update_of_ne hq, owned, owned, update_of_ne hq, hproc q hq]
    rw [hown]
    exact htable
  · rw [hic, hview]
    exact ⟨hv, rfl, rfl, rfl⟩
  · have hpm : p ≠ me := by
      rintro rfl
      exact hp hlive
    rw [hproc p hpm] at hp ⊢
    exact h.dead p hp

theorem newFd (hact : (gs me).active = true) (hplain : (gs me).Plain)
    (hfd : (s.proc me).ofile fd = none)
    (hsole : (s.ftable f).ref = 0 ∨ ∃ fd', (s.proc me).ofile fd' = some f)
    (hnone : (gs me).use = .none) (hpr : (gs me).proc = none) {u : Use}
    (hu : u = .none ∨ (s.ftable f).ref = 0 ∧ u = .opened fd f) :
    Base ((s.setFile f { s.ftable f with ref := (s.ftable f).ref + 1 }).setProc me
        ((s.proc me).withFd fd (some f)))
      (update gs me { gs me with use := u }) := by
  have hlive := (h.loc me).live hact
  have hplain' : Ghost.Plain { gs me with use := u } := hplain
  have hown : owned s gs me = s.proc me := hplain.own _
  have hself : ((s.setFile f { s.ftable f with ref := (s.ftable f).ref + 1 }).setProc me
      ((s.proc me).withFd fd (some f))).proc me = (s.proc me).withFd fd (some f) := by
    rw [State.setProc_proc, update_self]
  refine h.step_table rfl rfl rfl (fun q hq => update_of_ne hq ..) ?_
    (fun q hq fd' f' hf' => ?_) ((h.loc me).retable rfl rfl rfl (fun jp hj => ?_) ?_ ?_ ?_ hact) ?_
  · rw [hself, hplain'.own, held_of_refs_eq gs me (g := { gs me with use := u }) rfl, ← hown]
    have hfree : (owned s gs me).ofile fd = none := by rw [hown]; exact hfd
    exact (h.table.openFd (f := f) hfree).of_eq rfl rfl rfl
  · rw [State.setProc_ftable, State.setFile_ftable]
    by_cases hff : f' = f
    · subst hff
      rw [update_self]
      refine ⟨rfl, rfl, rfl, fun hone _ => ?_⟩
      rcases hsole with hz | ⟨fd'', hmine⟩
      · omega
      · have := h.table.two_le hq hf' (by rw [hown]; exact hmine)
        omega
    · rw [update_of_ne hff]
      exact ⟨rfl, rfl, rfl, fun hr _ => hr⟩
  · rcases (h.loc me).refers jp hj with hr | ⟨_, _, _, hr⟩
    · exact .inl hr
    · rw [hnone] at hr
      cases hr
  · rw [hself, hplain'.own]
    rcases hu with rfl | ⟨hz, rfl⟩
    · trivial
    · refine ⟨update_self .., ?_, ?_⟩
      · rw [State.setProc_ftable, State.setFile_ftable, update_self]
        exact h.table.none_of_zero f hz
      · rw [State.setProc_ftable, State.setFile_ftable, update_self, hz]
  · intro pr hp
    simp [hpr] at hp
  · rw [hself]
    exact hlive
  · rw [hself]
    exact hlive

theorem closeFd (hfd : (owned s gs me).ofile fd = some f) (href : 1 < (s.ftable f).ref)
    (hsb : s'.sb = s.sb) (hview : s'.view = s.view) (hic : s'.icache = s.icache)
    (hproc : ∀ q, q ≠ me → s'.proc q = s.proc q)
    (hft : s'.ftable = update s.ftable f { s.ftable f with ref := (s.ftable f).ref - 1 })
    (hown : g.own (s'.proc me) = (owned s gs me).withFd fd none) (hrefs : g.refs = (gs me).refs)
    (hlive : (s'.proc me).state = .live) (hme : LocalOk s' me g) : Base s' (update gs me g) := by
  refine h.step_table hsb hview hic hproc ?_ (fun q _ fd' f' _ => ?_) hme hlive
  · rw [hown, held_of_refs_eq gs me hrefs]
    exact (h.table.closeFd hfd href).of_eq hview hic hft
  · rw [hft]
    by_cases hff : f' = f
    · subst hff
      rw [update_self]
      exact ⟨rfl, rfl, rfl, fun hone => by omega⟩
    · rw [update_of_ne hff]
      exact ⟨rfl, rfl, rfl, fun hr _ => hr⟩

theorem closeLast
    (hfd : (owned s gs me).ofile fd = some f) (href : (s.ftable f).ref = 1)
    (hsb : s'.sb = s.sb) (hview : s'.view = s.view) (hic : s'.icache = s.icache)
    (hproc : ∀ q, q ≠ me → s'.proc q = s.proc q)
    (hft : s'.ftable = update s.ftable f { s.ftable f with ref := 0, type := .none })
    (hown : g.own (s'.proc me) = (owned s gs me).withFd fd none)
    (hrefs : held (update gs me g) = if (s.ftable f).type = .inode then
      update (held gs) (s.ftable f).ip (held gs (s.ftable f).ip + 1) else held gs)
    (hlive : (s'.proc me).state = .live) (hme : LocalOk s' me g) :
    Base s' (update gs me g) := by
  refine h.step_table hsb hview hic hproc ?_ (fun q hq fd' f' hf' => ?_) hme hlive
  · rw [hown, hrefs]
    exact (h.table.closeLast hfd href).of_eq hview hic hft
  · have hff : f' ≠ f := by
      rintro rfl
      have := h.table.two_le hq hf' hfd
      omega
    rw [hft, update_of_ne hff]
    exact ⟨rfl, rfl, rfl, fun hr _ => hr⟩

theorem publish (hact : (gs me).active = true) (hu : (gs me).use = .opened fd f) {x : File}
    (ht : x.type = .inode) (hip : x.ip = ip) (href : x.ref = (s.ftable f).ref)
    (hl : 0 < (gs me).refs ip) (hlocks : ∀ jp, (gs me).locks jp = none)
    (hne : (s.view.dino (s.icache ip).inum).type ≠ 0)
    (hw : x.writable = true → (s.view.dino (s.icache ip).inum).type ≠ tDir) :
    Base (s.setFile f x) (update gs me
      { (gs me).setRefs ip ((gs me).refs ip - 1) with use := .none }) := by
  have huse := (h.loc me).use
  rw [hu] at huse
  obtain ⟨hmine, hnone, hone⟩ := huse
  have hheld := refs_le_held gs me ip
  refine h.step_table rfl rfl rfl (fun _ _ => rfl) ?_ (fun q hq fd' f' hf' => ?_)
    ((h.loc me).retable rfl rfl rfl (fun jp hj => absurd (hlocks jp) hj) trivial (h.loc me).proc
      ((h.loc me).live hact) hact) ((h.loc me).live hact)
  · have howned : update (owned s gs) me
        (own { (gs me).setRefs ip ((gs me).refs ip - 1) with use := .none } (s.proc me)) =
        owned s gs := update_eq_self me (owned s gs)
    rw [State.setFile_proc, howned,
      held_setRefs gs me (k := held gs ip - 1) (by exact setRefs_refs ..) (by omega)]
    exact h.table.publish hnone ht hip href (by omega) (hl.trans_le hheld) hne hw
  · have hff : f' ≠ f := by
      rintro rfl
      have := h.table.two_le hq hf' hmine
      omega
    rw [State.setFile_ftable, update_of_ne hff]
    exact ⟨rfl, rfl, rfl, fun hr _ => hr⟩

theorem step_procs (hsb : s'.sb = s.sb) (hview : s'.view = s.view) (hic : s'.icache = s.icache)
    (hft : s'.ftable = s.ftable) (hproc : ∀ q, q ≠ me → s'.proc q = s.proc q)
    (htable : TableOk s (update (owned s gs) me (g.own (s'.proc me))) (held (update gs me g)))
    (hme : LocalOk s' me g) (hlive : (s'.proc me).state = .live) : Base s' (update gs me g) := by
  refine h.step_table hsb hview hic hproc (htable.of_eq hview hic hft) (fun q _ fd f _ => ?_) hme
    hlive
  · rw [hft]
    exact ⟨rfl, rfl, rfl, fun hr _ => hr⟩

theorem ghost (hact : g.active = true) (hrefs : g.refs = (gs me).refs)
    (hown : g.own (s.proc me) = (gs me).own (s.proc me)) (hlive : (s.proc me).state = .live)
    (hlocks : g.locks = (gs me).locks) (hrefers : ∀ ip, g.locks ip ≠ none → g.Refers ip)
    (huse : g.use.Ok s (g.own (s.proc me))) (hproc : ∀ pr, g.proc = some pr → s.proc me = pr) :
    Base s (update gs me g) := by
  refine h.step_procs rfl rfl rfl rfl (fun _ _ => rfl) ?_
    ((h.loc me).retable rfl rfl hlocks hrefers huse hproc hlive hact) hlive
  rw [hown, held_of_refs_eq gs me hrefs]
  have : update (owned s gs) me ((gs me).own (s.proc me)) = owned s gs :=
    update_eq_self me (owned s gs)
  rw [this]
  exact h.table

theorem start (hidle : gs me = .idle) (hlive : (s.proc me).state = .live) :
    Base s (update gs me .begin) := by
  refine h.ghost rfl (by rw [hidle]; rfl) (by rw [hidle]; rfl) hlive (by rw [hidle]; rfl)
    (fun ip hip => absurd rfl hip) trivial fun pr hpr => by simp [begin, idle] at hpr

omit [DecidableEq P] in
theorem setOff (f : Fin nFile) (off : Word) :
    Base (s.setFile f { s.ftable f with off := off }) gs where
  store := h.store.congr rfl rfl rfl
  dirs := h.dirs.congr rfl rfl
  table := h.table.setOff off
  loc q := by
    refine (h.loc q).aside ⟨rfl, fun _ => .rfl, fun _ _ hv => ⟨hv, rfl, rfl, rfl⟩,
      fun fd f' _ => ?_⟩
    rw [State.setFile_ftable]
    by_cases hff : f' = f
    · subst hff
      rw [update_self]
      exact ⟨rfl, rfl, rfl, fun hr _ => hr⟩
    · rw [update_of_ne hff]
      exact ⟨rfl, rfl, rfl, fun hr _ => hr⟩
  dead := h.dead

theorem takeCwd (hact : (gs me).active = true) (hm : (gs me).moving = none)
    (hcwd : (s.proc me).cwd = some ip) :
    Base s (update gs me
      { (gs me).setRefs ip ((gs me).refs ip + 1) with moving := some none }) := by
  have hmine : (owned s gs me).cwd = some ip := by simp [owned, own, hm, hcwd]
  have hlive := (h.loc me).live hact
  refine h.step_procs rfl rfl rfl rfl (fun _ _ => rfl) ?_
    ((h.loc me).retable rfl rfl rfl (fun jp hj => ?_) ?_ (h.loc me).proc hlive hact) hlive
  · have hown : own { (gs me).setRefs ip ((gs me).refs ip + 1) with moving := some none }
        (s.proc me) = (owned s gs me).withCwd none := rfl
    rw [hown, held_setRefs gs me (k := held gs ip + 1) (by exact setRefs_refs ..) (by omega)]
    exact h.table.takeCwd hmine
  · rcases (h.loc me).refers jp hj with hr | hr
    · refine .inl ?_
      change 0 < ((gs me).setRefs ip ((gs me).refs ip + 1)).refs jp
      rw [setRefs_refs]
      by_cases hji : jp = ip
      · rw [hji, update_self]
        exact Nat.succ_pos _
      · rwa [update_of_ne hji]
    · exact .inr hr
  · exact (h.loc me).use.of_ofile (fun _ => rfl) rfl

theorem giveCwd (hact : (gs me).active = true) (hm : (gs me).moving = some none)
    (hr : 0 < (gs me).refs ip) (hlocks : ∀ jp, (gs me).locks jp = none)
    (hdir : (s.view.dino (s.icache ip).inum).type = tDir) :
    Base s (update gs me
      { (gs me).setRefs ip ((gs me).refs ip - 1) with moving := some (some ip) }) := by
  have hheld := refs_le_held gs me ip
  have hmine : (owned s gs me).cwd = none := by simp [owned, own, hm]
  have hlive := (h.loc me).live hact
  refine h.step_procs rfl rfl rfl rfl (fun _ _ => rfl) ?_
    ((h.loc me).retable rfl rfl rfl (fun jp hj => absurd (hlocks jp) hj) ?_ (h.loc me).proc hlive
      hact) hlive
  · have hown : own { (gs me).setRefs ip ((gs me).refs ip - 1) with
        moving := some (some ip) } (s.proc me) = (owned s gs me).withCwd (some ip) := rfl
    rw [hown, held_setRefs gs me (k := held gs ip - 1) (by exact setRefs_refs ..) (by omega)]
    exact h.table.giveCwd hmine (hr.trans_le hheld) hdir
  · exact (h.loc me).use.of_ofile (fun _ => rfl) rfl

theorem setCwd (hact : (gs me).active = true) (hm : (gs me).moving = some (some ip))
    (hlocks : ∀ jp, (gs me).locks jp = none) (hpr : (gs me).proc = none) :
    Base (s.setProc me { s.proc me with cwd := some ip })
      (update gs me { gs me with moving := none }) := by
  have hlive := (h.loc me).live hact
  have hself : (s.setProc me { s.proc me with cwd := some ip }).proc me =
      { s.proc me with cwd := some ip } := update_self ..
  refine h.step_procs rfl rfl rfl rfl (fun q hq => update_of_ne hq ..) ?_
    ((h.loc me).retable rfl rfl rfl (fun jp hj => absurd (hlocks jp) hj) ?_ (fun pr hp => ?_) ?_
      hact) ?_
  · have hown : own { gs me with moving := none } { s.proc me with cwd := some ip } =
        owned s gs me := by simp [own, owned, hm]
    rw [hself, hown, update_eq_self, held_of_refs_eq gs me (g := { gs me with moving := none }) rfl]
    exact h.table
  · rw [hself]
    exact (h.loc me).use.of_ofile (fun _ => rfl) rfl
  · exact absurd (hpr.symm.trans hp) (by simp)
  · rw [hself]
    exact hlive
  · rw [hself]
    exact hlive

theorem finish (hrefs : ∀ ip, (gs me).refs ip = 0) (hlocks : ∀ ip, (gs me).locks ip = none)
    (hplain : (gs me).Plain) : Base s (update gs me .idle) := by
  refine h.step h.store h.dirs ?_ (.of_idle fun ip hl => ?_)
    (fun q _ => ⟨rfl, fun _ => .rfl, fun _ _ hv => ⟨hv, rfl, rfl, rfl⟩,
      fun _ _ _ => ⟨rfl, rfl, rfl, fun hr _ => hr⟩⟩) h.dead
  · rw [owned_update gs me rfl (by rw [hplain.own]; rfl), held_of_refs_eq gs me]
    · exact h.table
    · funext ip
      rw [hrefs]
      rfl
  · exact ((h.loc me).lock ip).mp hl (hlocks ip)

theorem exit (hrefs : ∀ ip, (gs me).refs ip = 0) (hlocks : ∀ ip, (gs me).locks ip = none)
    (hm : (gs me).moving = some none) (hofile : ∀ fd, (s.proc me).ofile fd = none) :
    Base (s.setProc me { s.proc me with cwd := none, state := .zombie })
      (update gs me .idle) := by
  have hother (q : P) (hq : q ≠ me) :
      (s.setProc me { s.proc me with cwd := none, state := .zombie }).proc q = s.proc q :=
    update_of_ne hq ..
  have hself : (s.setProc me { s.proc me with cwd := none, state := .zombie }).proc me =
      { s.proc me with cwd := none, state := .zombie } := update_self ..
  refine h.step (h.store.congr rfl rfl rfl) (h.dirs.congr rfl rfl) ?_ (.of_idle fun ip hl => ?_)
    (fun q hq => ⟨hother q hq, fun _ => .rfl, fun _ _ hv => ⟨hv, rfl, rfl, rfl⟩,
      fun _ _ _ => ⟨rfl, rfl, rfl, fun hr _ => hr⟩⟩) fun p hp => ?_
  · rw [held_of_refs_eq gs me (g := .idle) (funext fun ip => (hrefs ip).symm)]
    refine (h.table.of_own (fun p => ?_) fun p => ?_).of_eq rfl rfl rfl
    · by_cases hp : p = me
      · subst hp
        rw [owned, owned, hself, update_self]
        simp [own, idle, hm]
      · rw [owned, owned, hother p hp, update_of_ne hp]
    · by_cases hp : p = me
      · subst hp
        rw [owned, owned, hself, update_self]
        funext fd
        simp [own, hofile]
      · rw [owned, owned, hother p hp, update_of_ne hp]
  · exact ((h.loc me).lock ip).mp hl (hlocks ip)
  · by_cases hpm : p = me
    · subst hpm
      rw [hself]
      exact ⟨rfl, hofile⟩
    · rw [hother p hpm] at hp ⊢
      exact h.dead p hp

theorem wait {q : P} (hq : (s.proc q).state = .zombie) :
    Base (s.setProc q { s.proc q with state := .unused }) gs := by
  have hother (p : P) (hp : p ≠ q) :
      (s.setProc q { s.proc q with state := .unused }).proc p = s.proc p :=
    update_of_ne hp ..
  have hself : (s.setProc q { s.proc q with state := .unused }).proc q =
      { s.proc q with state := .unused } := update_self ..
  have hidle : gs q = .idle := by
    refine (h.loc q).idle (Bool.eq_false_iff.mpr fun hact => ?_)
    have := (h.loc q).live hact
    rw [hq] at this
    cases this
  refine ⟨h.store.congr rfl rfl rfl, h.dirs.congr rfl rfl,
    (h.table.of_own (fun p => ?_) fun p => ?_).of_eq rfl rfl rfl, fun p => ?_, fun p hp => ?_⟩
  · by_cases hp : p = q
    · subst hp
      rw [owned, owned, hself]
      rfl
    · rw [owned, owned, hother p hp]
  · by_cases hp : p = q
    · subst hp
      rw [owned, owned, hself]
      rfl
    · rw [owned, owned, hother p hp]
  · by_cases hp : p = q
    · subst hp
      rw [hidle]
      refine .of_idle fun ip hl => ?_
      have := ((h.loc p).lock ip).mp hl
      rw [hidle] at this
      exact this rfl
    · exact (h.loc p).aside ⟨hother p hp, fun _ => .rfl, fun _ _ hv => ⟨hv, rfl, rfl, rfl⟩,
        fun _ _ _ => ⟨rfl, rfl, rfl, fun hr _ => hr⟩⟩
  · by_cases hpq : p = q
    · subst hpq
      rw [hself]
      exact h.dead p (by rw [hq]; simp)
    · rw [hother p hpq] at hp ⊢
      exact h.dead p hp

end Base

/-! ### Fork -/

/-- The child has been given the first `k` descriptors. -/
structure Forking (me np : P) (gs : P → Ghost) (k : ℕ) (s t : State P) : Prop where
  sb : t.sb = s.sb
  view : t.view = s.view
  icache : t.icache = s.icache
  proc : ∀ q, q ≠ np → t.proc q = s.proc q
  state : (t.proc np).state = (s.proc np).state
  cwd : (t.proc np).cwd = none
  ofile : ∀ fd : Fin nOfile, (t.proc np).ofile fd =
    if (fd : ℕ) < k then (s.proc me).ofile fd else none
  table : TableOk t (owned t gs) (held gs)
  file : ∀ f, (t.ftable f).type = (s.ftable f).type ∧ (t.ftable f).ip = (s.ftable f).ip ∧
    (t.ftable f).writable = (s.ftable f).writable ∧
    ((∀ fd, (s.proc me).ofile fd ≠ some f) → (t.ftable f).ref = (s.ftable f).ref)

theorem Forking.fd [DecidableEq P] {me np : P} {gs : P → Ghost} {t : State P} {fd : Fin nOfile}
    {f : Fin nFile} (h : Forking me np gs fd s t) (hidle : gs np = .idle)
    (hf : (s.proc me).ofile fd = some f) :
    Forking me np gs (fd + 1) s ((t.setFile f { t.ftable f with ref := (t.ftable f).ref + 1
      }).setProc
      np ((t.proc np).withFd fd (some f))) := by
  have hself : ((t.setFile f { t.ftable f with ref := (t.ftable f).ref + 1 }).setProc np
      ((t.proc np).withFd fd (some f))).proc np = (t.proc np).withFd fd (some f) :=
    update_self ..
  have hother (q : P) (hq : q ≠ np) : ((t.setFile f { t.ftable f with
      ref := (t.ftable f).ref + 1 }).setProc np ((t.proc np).withFd fd (some f))).proc q =
      t.proc q := update_of_ne hq ..
  have hplain : Ghost.Plain .idle := ⟨rfl, rfl⟩
  have hown : owned t gs np = t.proc np := by rw [owned, hidle, hplain.own]
  refine ⟨h.sb, h.view, h.icache, fun q hq => (hother q hq).trans (h.proc q hq), ?_, ?_,
    fun fd' => ?_, ?_, fun f' => ?_⟩
  · rw [hself]
    exact h.state
  · rw [hself]
    exact h.cwd
  · rw [hself]
    change update (t.proc np).ofile fd (some f) fd' = _
    by_cases hfd : fd' = fd
    · subst hfd
      rw [update_self, if_pos (Nat.lt_succ_self _), hf]
    · have hne : (fd' : ℕ) ≠ fd := fun heq => hfd (Fin.ext heq)
      rw [update_of_ne hfd, h.ofile fd']
      refine if_congr ?_ rfl rfl
      omega
  · have hnone : (owned t gs np).ofile fd = none := by
      rw [hown, h.ofile fd, if_neg (Nat.lt_irrefl _)]
    have htable := h.table.openFd (p := np) (f := f) hnone
    refine (htable.of_own (fun p => ?_) fun p => ?_).of_eq rfl rfl rfl
    all_goals
      by_cases hp : p = np
      · subst hp
        rw [update_self, owned, hself, hidle, hplain.own, hown]
      · rw [update_of_ne hp, owned, owned, hother p hp]
  · rw [State.setProc_ftable, State.setFile_ftable]
    by_cases hff : f' = f
    · subst hff
      obtain ⟨h1, h2, h3, -⟩ := h.file f'
      rw [update_self]
      exact ⟨h1, h2, h3, fun hno => absurd hf (hno fd)⟩
    · rw [update_of_ne hff]
      exact h.file f'

theorem forkFiles_spec [DecidableEq P] {me np : P} {gs : P → Ghost} (h : Base s gs)
    (hne : me ≠ np) (hplain : (gs me).Plain) (hidle : gs np = .idle)
    (hdead : (s.proc np).state ≠ .live) :
    Wp E (forkFiles me np) (fun _ t => Forking me np gs nOfile s t) s := by
  have hlen : (List.finRange nOfile).length = nOfile := List.length_finRange
  refine (wp_forM (fun k t => Forking me np gs k s t) (fun k hk t ht => ?_) ?_).mono
    fun _ t ht => hlen ▸ ht
  · have hk' : k < nOfile := hlen ▸ hk
    have hget : (List.finRange nOfile).get ⟨k, hk⟩ = ⟨k, hk'⟩ := by simp
    simp only [hget, wp_bind, wp_get, ht.proc me hne]
    split
    · rename_i hnone
      refine ⟨ht.sb, ht.view, ht.icache, ht.proc, ht.state, ht.cwd, fun fd => ?_, ht.table, ht.file⟩
      rw [ht.ofile fd]
      by_cases hfd : (fd : ℕ) = k
      · have hfd' : fd = ⟨k, hk'⟩ := Fin.ext hfd
        rw [if_neg (by omega), if_pos (by omega), hfd', hnone]
      · refine if_congr ?_ rfl rfl
        omega
    · rename_i f hf
      have hmine : (owned t gs me).ofile ⟨k, hk'⟩ = some f := by
        rw [owned, hplain.own, ht.proc me hne]
        exact hf
      have hpos := ht.table.file_pos hmine
      simp only [filedup, wp_bind, wp_get, Nat.not_lt.mpr hpos, ↓reduceIte, wp_modify, setOfile]
      have ht' : Forking me np gs (⟨k, hk'⟩ : Fin nOfile) s t := ht
      exact ht'.fd hidle hf
  · refine ⟨rfl, rfl, rfl, fun _ _ => rfl, rfl, (h.dead np hdead).1, fun fd => ?_, h.table,
      fun f => ⟨rfl, rfl, rfl, fun _ => rfl⟩⟩
    rw [if_neg (Nat.not_lt_zero _)]
    exact (h.dead np hdead).2 fd

theorem Base.fork [DecidableEq P] {me np : P} {gs : P → Ghost} {t : State P} (h : Base s gs)
    (hne : me ≠ np) (hbegin : gs me = .begin) (hidle : gs np = .idle)
    (ht : Forking me np gs nOfile s t) {c : Slot} (hc : (s.proc me).cwd = some c) :
    Base ((t.setInode c { t.icache c with ref := (t.icache c).ref + 1 }).setProc np
      { t.proc np with cwd := some c, state := .live }) gs := by
  have hplain : (gs me).Plain := by
    rw [hbegin]
    exact ⟨rfl, rfl⟩
  have hlive : (s.proc me).state = .live := (h.loc me).live (by rw [hbegin]; rfl)
  have hcwd : (owned t gs me).cwd = some c := by
    rw [owned, hplain.own, ht.proc me hne, hc]
  have hpos := ht.table.ref_pos_of_cwd hcwd
  have hgot : Got t (t.icache c).inum c
      (t.setInode c { t.icache c with ref := (t.icache c).ref + 1 }) := .hit hpos rfl
  have hstore : StoreOk t := h.store.congr ht.sb ht.view ht.icache
  have hown : owned t gs np = t.proc np := by
    rw [owned, hidle]
    exact Ghost.Plain.own ⟨rfl, rfl⟩ _
  set u := (t.setInode c { t.icache c with ref := (t.icache c).ref + 1 }).setProc np
    { t.proc np with cwd := some c, state := .live } with hu
  have hself : u.proc np = { t.proc np with cwd := some c, state := .live } :=
    update_self ..
  have hother (q : P) (hq : q ≠ np) : u.proc q = s.proc q :=
    (update_of_ne hq ..).trans (ht.proc q hq)
  have hlock (jp : Slot) : (u.icache jp).lock = (s.icache jp).lock := by
    have : (u.icache jp).lock = (t.icache jp).lock := hgot.lock
    rw [this, ht.icache]
  have hnolock (p : P) (hp : (gs p).locks = fun _ => none) (ip : Slot) :
      (u.icache ip).lock ≠ some p := by
    rw [hlock]
    intro hl
    exact ((h.loc p).lock ip).mp hl (by rw [hp])
  refine ⟨?_, ?_, ?_, fun q => ?_, fun p hp => ?_⟩
  · refine (hgot.storeOk hstore ?_).congr rfl rfl rfl
    exact hstore.cache.inum_lt c hpos
  · exact h.dirs.congr ht.sb ht.view
  · -- the new reference becomes the current directory of the child
    have hlast : 0 < update (held gs) c (held gs c + 1) c := by simp
    have hgive := (ht.table.got hgot).giveCwd (p := np) (by rw [hown, ht.cwd]) hlast (by
      rw [hgot.inum, hgot.view]
      exact ht.table.cwd_type me c hcwd)
    rw [update_self, update_idem, Nat.add_sub_cancel, update_eq_self] at hgive
    refine (hgive.of_own (fun p => ?_) fun p => ?_).of_eq rfl rfl rfl
    all_goals
      by_cases hp : p = np
      · subst hp
        rw [update_self, owned, hself, hidle, hown]
        rfl
      · rw [update_of_ne hp, owned, owned, hother p hp, ht.proc p hp]
  · by_cases hq : q = np
    · subst hq
      rw [hidle]
      exact .of_idle (hnolock q (by rw [hidle]; rfl))
    by_cases hqm : q = me
    · subst hqm
      rw [hbegin]
      exact .of_begin (hnolock q (by rw [hbegin]; rfl)) (by rw [hother q hq]; exact hlive)
    refine (h.loc q).aside ⟨hother q hq, fun jp => by rw [hlock], fun jp hl hv => ?_,
      fun fd f hf => ?_⟩
    · have hview : u.view = s.view := ht.view
      have hic : (u.icache jp).valid = (s.icache jp).valid ∧
          (u.icache jp).inum = (s.icache jp).inum := by
        rw [← ht.icache]
        change ((update t.icache c _) jp).valid = _ ∧ _
        by_cases hj : jp = c
        · subst hj
          exact ⟨by rw [update_self], by
            change ((update t.icache jp _) jp).inum = _
            rw [update_self]⟩
        · exact ⟨by rw [update_of_ne hj], by
            change ((update t.icache c _) jp).inum = _
            rw [update_of_ne hj]⟩
      rw [hic.1, hic.2, hview]
      exact ⟨hv, rfl, rfl, rfl⟩
    · obtain ⟨h1, h2, h3, h4⟩ := ht.file f
      refine ⟨h1, h2, h3, fun hone _ => ?_⟩
      refine (h4 fun fd' hmine => ?_).trans hone
      have := h.table.two_le (Ne.symm hqm) (by rw [owned, hplain.own]; exact hmine) hf
      omega
  · by_cases hpn : p = np
    · subst hpn
      rw [hself] at hp
      exact absurd rfl hp
    · rw [hother p hpn] at hp ⊢
      exact h.dead p hp

end Dave.Fs
