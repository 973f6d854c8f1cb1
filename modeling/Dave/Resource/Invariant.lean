import Dave.Resource.Accounts

/-!
# The accounts between two calls

Between two calls nothing is on its way: every frame of the pool is free or has one owner, every
file has as many references as descriptors, and every open end of a pipe has one file. Every system
call keeps this, whether it succeeds or fails.
-/

namespace Dave.Resource

open Memory
open Fs (nFile nOfile)
open Proc (Slot nproc initproc)

/-! ### The invariant -/

/-- The descriptors of the processes. -/
def State.tables (s : State) : Table := fun p => (s.proc p).ofile

/-- The accounts between two calls. Only running processes have descriptors, and no process is half
made. -/
structure Inv (pool : Finset Frame) (s : State) : Prop where
  pages : Pages pool 0 s
  files : Files s.tables 0 s
  closed : ∀ p, (s.proc p).state ≠ .live → ∀ fd, (s.proc p).ofile fd = none
  born : ∀ p, (s.proc p).state ≠ .embryo

def Process.holding (x : Process) :
    Life × Option Frame × Option PageDir × (Fin nOfile → Option (Fin nFile)) :=
  (x.state, x.kstack, x.pgdir, x.ofile)

/-- Only process `p` holds something else than before, and the files that other processes have
descriptors for remain ends of the same pipes. -/
structure Local (p : Slot) (s s' : State) : Prop where
  proc : ∀ q, q ≠ p → (s'.proc q).holding = (s.proc q).holding
  kpgdir : s'.kpgdir = s.kpgdir
  cpuStacks : s'.cpuStacks = s.cpuStacks
  ends : ∀ g, Others s.tables p g → (s'.file g).pipeEnd = (s.file g).pipeEnd

namespace Local

variable {p : Slot} {s s' s'' : State}

theorem refl (p : Slot) (s : State) : Local p s s := ⟨fun _ _ => rfl, rfl, rfl, fun _ _ => rfl⟩

variable {q : Slot}

section

variable (h : Local p s s')

include h

theorem ofile (hq : q ≠ p) :
    (s'.proc q).ofile = (s.proc q).ofile := congrArg (fun x => x.2.2.2) (h.proc q hq)

theorem state (hq : q ≠ p) :
    (s'.proc q).state = (s.proc q).state := congrArg (fun x => x.1) (h.proc q hq)

theorem frames (hq : q ≠ p) : (s'.proc q).frames = (s.proc q).frames := by
  have hq := h.proc q hq
  simp only [Process.holding, Prod.mk.injEq] at hq
  obtain ⟨hstate, hkstack, hpgdir, -⟩ := hq
  rw [Process.frames, Process.frames, hstate, hkstack, hpgdir]

theorem others_iff {g : Fin nFile} : Others s'.tables p g ↔ Others s.tables p g := by
  constructor
  · rintro ⟨q, hq, fd, hfd⟩
    exact ⟨q, hq, fd, by rw [State.tables, ← h.ofile hq]; exact hfd⟩
  · rintro ⟨q, hq, fd, hfd⟩
    exact ⟨q, hq, fd, by rw [State.tables, h.ofile hq]; exact hfd⟩

theorem trans (h' : Local p s' s'') : Local p s s'' where
  proc q hq := (h'.proc q hq).trans (h.proc q hq)
  kpgdir := h'.kpgdir.trans h.kpgdir
  cpuStacks := h'.cpuStacks.trans h.cpuStacks
  ends g hg := (h'.ends g (h.others_iff.mpr hg)).trans (h.ends g hg)

end

theorem setProc (x : Process) : Local p s (s.setProc p x) where
  proc q hq := by rw [State.setProc_proc_of_ne _ hq]
  kpgdir := rfl
  cpuStacks := rfl
  ends _ _ := rfl

theorem mem (m : Mem) : Local p s { s with mem := m } :=
  ⟨fun _ _ => rfl, rfl, rfl, fun _ _ => rfl⟩

theorem of_keeps {tbl : Table} (h : Keeps tbl p s s')
    (htbl : ∀ g, Others s.tables p g → Others tbl p g) : Local p s s' where
  proc q _ := by rw [h.proc]
  kpgdir := h.kpgdir
  cpuStacks := h.cpuStacks
  ends g hg := h.ends g (htbl g hg)

end Local

@[simp] theorem tables_setProc (s : State) (p : Slot) (x : Process) :
    (s.setProc p x).tables = Function.update s.tables p x.ofile := by
  funext q
  by_cases hq : q = p
  · subst hq
    simp [State.tables]
  · simp [State.tables, State.setProc_proc_of_ne _ hq, hq]

variable {hand : Multiset (Fin nFile)}

theorem Files.setProc {s : State} (h : Files s.tables hand s) {p : Slot} {x : Process}
    (hx : x.ofile = (s.proc p).ofile) : Files (s.setProc p x).tables hand (s.setProc p x) := by
  have htables : (s.setProc p x).tables = s.tables := by
    rw [tables_setProc, hx]
    exact Function.update_eq_self p s.tables
  rw [htables]
  exact h.congr rfl rfl

theorem Files.setMem {s : State} (h : Files s.tables hand s) (m : Mem) :
    Files ({ s with mem := m } : State).tables hand { s with mem := m } :=
  h.congr rfl rfl

@[simp] theorem tables_setOfile (s : State) (p : Slot) (fd : Fin nOfile) (o : Option (Fin nFile)) :
    (s.setOfile p fd o).tables =
      Function.update s.tables p (Function.update (s.tables p) fd o) := tables_setProc ..

@[simp] theorem tables_setFile (s : State) (f : Fin nFile) (x : File) :
    (s.setFile f x).tables = s.tables := rfl

theorem State.tables_of_proc {s s' : State} (h : s'.proc = s.proc) : s'.tables = s.tables := by
  unfold State.tables
  rw [h]

theorem others_update {tbl : Table} {p : Slot} {t : Fin nOfile → Option (Fin nFile)}
    {g : Fin nFile} : Others (Function.update tbl p t) p g ↔ Others tbl p g := by
  constructor
  · rintro ⟨q, hq, fd, hfd⟩
    exact ⟨q, hq, fd, by rwa [Function.update_of_ne hq] at hfd⟩
  · rintro ⟨q, hq, fd, hfd⟩
    exact ⟨q, hq, fd, by rwa [Function.update_of_ne hq]⟩

section SetProc

variable {pool : Finset Frame} {X : Multiset Frame} {s : State} {p : Slot}

theorem Process.Sound.of_eq {x y : Process} (h : x.Sound) (hstate : y.state = x.state)
    (hkstack : y.kstack = x.kstack) (hpgdir : y.pgdir = x.pgdir) (hsz : y.sz = x.sz) :
    y.Sound := by
  unfold Process.Sound at h ⊢
  rwa [hstate, hkstack, hpgdir, hsz]

theorem sound_setProc (h : ∀ q, (s.proc q).Sound) {x : Process} (hx : x.Sound) :
    ∀ q, ((s.setProc p x).proc q).Sound := by
  intro q
  by_cases hq : q = p
  · subst hq
    simpa using hx
  · simpa [State.setProc_proc_of_ne _ hq] using h q

variable {Y : Multiset Frame}

theorem Pages.setProc (h : Pages pool X s) {x : Process} (hx : x.Sound)
    (hframes : x.frames + Y = (s.proc p).frames + X) : Pages pool Y (s.setProc p x) where
  cons := by
    refine h.cons.congr (add_right_cancel (b := (s.proc p).frames) ?_)
    have howned := s.owned_setProc p x
    calc s.owned + X + (s.proc p).frames = s.owned + ((s.proc p).frames + X) := by abel
      _ = (s.owned + x.frames) + Y := by rw [← hframes]; abel
      _ = _ := by rw [← howned]; abel
  sound := sound_setProc h.sound hx

theorem Pages.setOfile (h : Pages pool X s) (fd : Fin nOfile) (o : Option (Fin nFile)) :
    Pages pool X (s.setOfile p fd o) :=
  h.setProc ((h.sound p).of_eq rfl rfl rfl rfl) rfl

theorem Pages.setFile (h : Pages pool X s) (f : Fin nFile) (x : File) :
    Pages pool X (s.setFile f x) := ⟨h.cons, h.sound⟩

theorem Pages.setMem (h : Pages pool X s) {m : Mem} (hm : Conserved pool (s.owned + Y) m) :
    Pages pool Y { s with mem := m } := ⟨hm, h.sound⟩

theorem Inv.of_local {s' : State} (h : Inv pool s) (hloc : Local p s s') (hpages : Pages pool 0 s')
    (hfiles : Files s'.tables 0 s')
    (hclosed : (s'.proc p).state ≠ .live → ∀ fd, (s'.proc p).ofile fd = none)
    (hborn : (s'.proc p).state ≠ .embryo) : Inv pool s' where
  pages := hpages
  files := hfiles
  closed q := by
    by_cases hq : q = p
    · subst hq
      exact hclosed
    · rw [hloc.state hq, hloc.ofile hq]
      exact h.closed q
  born q := by
    by_cases hq : q = p
    · subst hq
      exact hborn
    · rw [hloc.state hq]
      exact h.born q

end SetProc

/-! ### Files -/

section FileCalls

variable {L : Layout} {pool : Finset Frame} {s : State} {me : Slot}

/-- A call by process `me` that leaves it running. -/
structure Done (pool : Finset Frame) (me : Slot) (s s' : State) : Prop where
  inv : Inv pool s'
  loc : Local me s s'
  live : (s'.proc me).state = .live

theorem Done.refl (h : Inv pool s) (hlive : (s.proc me).state = .live) : Done pool me s s :=
  ⟨h, .refl _ _, hlive⟩

theorem Done.of_files {s' : State} (h : Inv pool s) (hlive : (s'.proc me).state = .live)
    (hloc : Local me s s') (hP : Pages pool 0 s') (hF : Files s'.tables 0 s') : Done pool me s s' :=
  ⟨h.of_local hloc hP hF (fun hne => absurd hlive hne) (by rw [hlive]; nofun), hloc, hlive⟩

theorem wp_sysDup {fd : ℤ} (h : Inv pool s) (hlive : (s.proc me).state = .live) :
    Wp Fine (sysDup me fd) (fun _ s' => Done pool me s s') s := by
  simp only [sysDup, wp_bind]
  refine wp_argfd (.refl h hlive) fun i f hi => ?_
  simp only [wp_bind]
  refine wp_fdalloc (.refl h hlive) fun fd' hfd' => ?_
  refine wp_filedup ?_ ?_
  · change 0 < (s.file f).ref
    rw [h.files.ref_eq f]
    exact Nat.add_pos_left (refs_pos (p := me) hi) _
  · -- the new descriptor takes over the reference that `filedup` adds
    have hF₀ : Files s.tables 0 (s.setOfile me fd' (some f)) := h.files.congr rfl rfl
    have hF := hF₀.dup (f := f)
    have hloc : Local me (s.setOfile me fd' (some f)) _ :=
      .of_keeps (.setFile { s.file f with ref := (s.file f).ref + 1 } fun _ => rfl) fun g => id
    refine .of_files h ?_ ((Local.setProc _).trans hloc) ((h.pages.setOfile _ _).setFile _ _) ?_
    · simpa [State.setFile, State.setOfile] using hlive
    · rw [tables_setFile, tables_setOfile]
      exact hF.put hfd'

theorem wp_sysClose (hpool : InRange L pool) {fd : ℤ} (h : Inv pool s)
    (hlive : (s.proc me).state = .live) :
    Wp Fine (sysClose L me fd) (fun _ s' => Done pool me s s') s := by
  simp only [sysClose, wp_bind]
  refine wp_argfd (.refl h hlive) fun i f hi => ?_
  simp only [wp_bind, wp_setOfile]
  have hF : Files (s.setOfile me i none).tables (f ::ₘ 0) (s.setOfile me i none) := by
    rw [tables_setOfile]
    exact (h.files.pull (p := me) hi).congr rfl rfl
  refine (wp_fileclose hpool me hF (h.pages.setOfile _ _)).mono ?_
  rintro _ s' ⟨hk, hF', hP'⟩
  refine .of_files h ?_ ((Local.setProc _).trans (.of_keeps hk fun _ => id)) hP' ?_
  · rw [hk.proc]
    simpa [State.setOfile] using hlive
  · rwa [State.tables_of_proc hk.proc]

theorem wp_sysOpen (hpool : InRange L pool) {found : Bool} {omode : Word} (h : Inv pool s)
    (hlive : (s.proc me).state = .live) :
    Wp Fine (sysOpen L me found omode) (fun _ s' => Done pool me s s') s := by
  unfold sysOpen
  split_ifs with hfound
  · exact .refl h hlive
  simp only [wp_bind]
  refine wp_filealloc (.refl h hlive) fun f hf => ?_
  obtain ⟨htype, ho⟩ := h.files.fresh me hf
  have hF := h.files.alloc hf
  have hP : Pages pool 0 (s.setFile f { s.file f with ref := 1 }) := h.pages.setFile _ _
  have hloc : Local me s (s.setFile f { s.file f with ref := 1 }) :=
    .of_keeps (.setFile _ fun _ => rfl) fun _ => id
  have hfile : (s.setFile f { s.file f with ref := 1 }).file f = { s.file f with ref := 1 } := by
    simp [State.setFile]
  have hproc : (s.setFile f { s.file f with ref := 1 }).proc = s.proc := rfl
  generalize s.setFile f { s.file f with ref := 1 } = s1 at hF hP hloc hfile hproc ⊢
  simp only [wp_bind]
  refine wp_fdalloc ?_ fun fd hfd => ?_
  · -- no descriptor: the file is closed again
    refine (wp_fileclose hpool me hF hP).mono fun _ s' ⟨hk, hF', hP'⟩ => ?_
    refine .of_files h ?_ (hloc.trans (.of_keeps hk fun g hg => ?_)) hP' ?_
    · rw [hk.proc, hproc]
      exact hlive
    · rwa [State.tables_of_proc hproc] at hg
    · rwa [State.tables_of_proc (hk.proc.trans hproc)]
  · have hF1 : Files (s1.setOfile me fd (some f)).tables 0 (s1.setOfile me fd (some f)) := by
      rw [tables_setOfile, State.tables_of_proc hproc]
      rw [hproc] at hfd
      exact (hF.put (p := me) hfd).congr rfl rfl
    have hfile1 : (s1.setOfile me fd (some f)).file f = { s.file f with ref := 1 } := hfile
    have hloc1 : Local me s (s1.setOfile me fd (some f)) := hloc.trans (.setProc _)
    rw [wp_modifyFile]
    refine .of_files h ?_ (hloc1.trans (.of_keeps (.setFile _ fun hg => absurd hg ?_) fun _ => id))
      ((hP.setOfile _ _).setFile _ _) ?_
    · simpa [State.setFile, State.setOfile, hproc] using hlive
    · rwa [hloc1.others_iff]
    · rw [tables_setFile]
      exact hF1.publish (by simp [hfile1]) (by simpa [hfile1] using htype) _ _

/-- Two descriptors, or none: what has been taken is given back on every path. -/
theorem wp_sysPipe (hpool : InRange L pool) (h : Inv pool s) (hlive : (s.proc me).state = .live) :
    Wp Fine (sysPipe L me) (fun _ s' => Done pool me s s') s := by
  simp only [sysPipe, wp_bind]
  refine (wp_pipealloc hpool me h.files h.pages).mono ?_
  rintro r s1 ⟨hk1, hP1, hF1⟩
  have hloc1 : Local me s s1 := .of_keeps hk1 fun _ => id
  have htables1 : s1.tables = s.tables := State.tables_of_proc hk1.proc
  have hlive1 : (s1.proc me).state = .live := by rwa [hk1.proc]
  rw [← htables1] at hF1
  cases r with
  | none => exact .of_files h hlive1 hloc1 hP1 (by simpa using hF1)
  | some fs =>
    obtain ⟨rf, wf⟩ := fs
    simp only [Option.elim_some, add_zero, Multiset.singleton_add] at hF1
    simp only [wp_bind]
    refine wp_fdalloc ?_ fun fd0 hfd0 => ?_
    · refine (wp_closeTwo hpool me hF1 hP1).mono ?_
      rintro _ s2 ⟨hk2, hF2, hP2⟩
      exact .of_files h (by rwa [hk2.proc]) (hloc1.trans (.of_keeps hk2 fun _ => id)) hP2
        (by rwa [State.tables_of_proc hk2.proc])
    · have hF2 : Files (s1.setOfile me fd0 (some rf)).tables {wf}
          (s1.setOfile me fd0 (some rf)) := by
        rw [tables_setOfile]
        exact (hF1.put (p := me) hfd0).congr rfl rfl
      have hP2 := hP1.setOfile (p := me) fd0 (some rf)
      have hloc2 : Local me s (s1.setOfile me fd0 (some rf)) := hloc1.trans (.setProc _)
      have hlive2 : ((s1.setOfile me fd0 (some rf)).proc me).state = .live := by
        simpa [State.setOfile] using hlive1
      have hfd : ((s1.setOfile me fd0 (some rf)).proc me).ofile fd0 = some rf := by
        simp [State.setOfile]
      generalize s1.setOfile me fd0 (some rf) = s2 at hF2 hP2 hloc2 hlive2 hfd ⊢
      simp only [wp_bind]
      refine wp_fdalloc ?_ fun fd1 hfd1 => ?_
      · -- the first descriptor is given back, and both files are closed
        simp only [wp_bind, wp_setOfile]
        have hF3 : Files (s2.setOfile me fd0 none).tables (rf ::ₘ {wf})
            (s2.setOfile me fd0 none) := by
          rw [tables_setOfile]
          exact (hF2.pull (p := me) hfd).congr rfl rfl
        have hclose := wp_closeTwo hpool me hF3 (hP2.setOfile _ _)
        rw [wp_bind] at hclose
        refine hclose.mono fun _ s4 hs4 => hs4.mono ?_
        rintro _ s5 ⟨hk5, hF5, hP5⟩
        refine .of_files h ?_ ((hloc2.trans (.setProc _)).trans (.of_keeps hk5 fun _ => id)) hP5
          (by rwa [State.tables_of_proc hk5.proc])
        rw [hk5.proc]
        simpa [State.setOfile] using hlive2
      · refine .of_files h (by simpa [State.setOfile] using hlive2) (hloc2.trans (.setProc _))
          (hP2.setOfile _ _) ?_
        rw [tables_setOfile]
        exact (Files.put (f := wf) hF2 (p := me) hfd1).congr rfl rfl

end FileCalls

end Dave.Resource
