import Dave.Lib.Ledger
import Dave.Memory.Protection
import Dave.Resource.Calls

/-!
# The accounts of frames and files

Two accounts are kept. Every frame of the pool is free or has one owner, where the owners are the
page table of the kernel, the stacks of the processors, the processes and the pipes. Every file has
as many references as there are descriptors for it, and every open end of a pipe has one file.

In the middle of a call frames and references may be on their way: `X` are the frames that the call
holds in local variables, `hand` the file references it holds, and `tbl` the descriptors as far as
they are counted.
-/

namespace Dave.Resource

open State Multiset Function Memory
open Fs (nFile nOfile)
open Proc (Slot nproc initproc)

/-! ### The account of the frames -/

/-- The frames that a process owns. -/
def Process.frames (x : Process) : Multiset Frame :=
  match x.state with
  | .unused | .embryo => 0
  | .live | .zombie => x.kstack.elim 0 ({·}) + x.pgdir.elim 0 PageDir.frames

/-- The frame of a pipe. -/
def pipeFrames (pg : Frame) (o : Option Ends) : Multiset Frame := o.elim 0 fun _ => {pg}

namespace State

variable (s : State)

/-- The frames that have an owner. -/
def owned : Multiset Frame :=
  s.kpgdir.elim 0 PageDir.frames + (s.cpuStacks : Multiset Frame) + ∑ p, (s.proc p).frames +
    ∑ pg, pipeFrames pg (s.pipe pg)

theorem owned_setProc (p : Slot) (x : Process) :
    (s.setProc p x).owned + (s.proc p).frames = s.owned + x.frames := by
  have h := sum_update_add (fun _ => Process.frames) s.proc p x
  unfold owned setProc
  dsimp only
  generalize (∑ q, (update s.proc p x q).frames) = A at h ⊢
  generalize (∑ q, (s.proc q).frames) = B at h ⊢
  generalize (∑ pg, pipeFrames pg (s.pipe pg)) = C
  calc _ = s.kpgdir.elim 0 PageDir.frames + (s.cpuStacks : Multiset Frame) + C +
        (A + (s.proc p).frames) := by abel
    _ = _ := by rw [h]; abel

theorem owned_setPipe (pg : Frame) (o : Option Ends) :
    (s.setPipe pg o).owned + pipeFrames pg (s.pipe pg) = s.owned + pipeFrames pg o := by
  have h := sum_update_add pipeFrames s.pipe pg o
  unfold owned setPipe
  dsimp only
  generalize (∑ q, pipeFrames q (update s.pipe pg o q)) = A at h ⊢
  generalize (∑ q, pipeFrames q (s.pipe q)) = B at h ⊢
  generalize (∑ q, (s.proc q).frames) = C
  calc _ = s.kpgdir.elim 0 PageDir.frames + (s.cpuStacks : Multiset Frame) + C +
        (A + pipeFrames pg (s.pipe pg)) := by abel
    _ = _ := by rw [h]; abel

end State

/-- A running process and a zombie have a kernel stack and an address space of at most the size of
the user part, in which programs cannot use the kernel part. -/
def Process.Sound (x : Process) : Prop :=
  x.state = .live ∨ x.state = .zombie → x.kstack ≠ none ∧ x.pgdir ≠ none ∧ x.sz ≤ kernBase ∧
    ∀ d, x.pgdir = some d → d.Safe

/-- The account of the frames, with the frames `X` on their way. -/
structure Pages (pool : Finset Frame) (X : Multiset Frame) (s : State) : Prop where
  cons : Conserved pool (s.owned + X) s.mem
  sound : ∀ p, (s.proc p).Sound

/-! ### The account of the files -/

/-- The end of a pipe that a file is: the page of the pipe, and whether it is the write end. -/
def File.pipeEnd (x : File) : Option (Frame × Bool) :=
  if x.type = .pipe then some (x.pipe, x.writable) else none

/-- `readopen` or `writeopen`. -/
def Ends.isOpen (e : Ends) (w : Bool) : Bool := if w then e.writeopen else e.readopen

/-- The end of the pipe in a page is open. -/
def State.opened (s : State) (x : Frame × Bool) : Bool := (s.pipe x.1).any (·.isOpen x.2)

/-- The descriptors of the processes. -/
abbrev Table : Type := Slot → Fin nOfile → Option (Fin nFile)

/-- The number of descriptors of a process for file `f`. -/
def slots (t : Fin nOfile → Option (Fin nFile)) (f : Fin nFile) : ℕ :=
  ∑ fd, if t fd = some f then 1 else 0

/-- The number of descriptors for file `f`. -/
def refs (tbl : Table) (f : Fin nFile) : ℕ := ∑ p, slots (tbl p) f

/-- The account of the files, with the references `hand` on their way. -/
structure Files (tbl : Table) (hand : Multiset (Fin nFile)) (s : State) : Prop where
  ref_eq : ∀ f, (s.file f).ref = refs tbl f + hand.count f
  none_of_ref : ∀ f, (s.file f).ref = 0 → (s.file f).type = .none
  ends : Ledger Finset.univ (fun f => (s.file f).pipeEnd) s.opened
  alive : ∀ pg e, s.pipe pg = some e → e.readopen = true ∨ e.writeopen = true
  readable : ∀ f, (s.file f).type = .pipe → (s.file f).readable = !(s.file f).writable

/-- A process other than `me` has a descriptor for file `f`. -/
def Others (tbl : Table) (me : Slot) (f : Fin nFile) : Prop :=
  ∃ q, q ≠ me ∧ ∃ fd, tbl q fd = some f

/-- What code of process `me` that leaves the processes alone does to the rest: the files that
others have descriptors for remain ends of the same pipes. -/
structure Keeps (tbl : Table) (me : Slot) (s s' : State) : Prop where
  proc : s'.proc = s.proc
  kpgdir : s'.kpgdir = s.kpgdir
  cpuStacks : s'.cpuStacks = s.cpuStacks
  ends : ∀ g, Others tbl me g → (s'.file g).pipeEnd = (s.file g).pipeEnd

theorem Keeps.refl (tbl : Table) (me : Slot) (s : State) : Keeps tbl me s s :=
  ⟨rfl, rfl, rfl, fun _ _ => rfl⟩

theorem Keeps.trans {tbl : Table} {me : Slot} {s s' s'' : State} (h : Keeps tbl me s s')
    (h' : Keeps tbl me s' s'') : Keeps tbl me s s'' where
  proc := h'.proc.trans h.proc
  kpgdir := h'.kpgdir.trans h.kpgdir
  cpuStacks := h'.cpuStacks.trans h.cpuStacks
  ends g hg := (h'.ends g hg).trans (h.ends g hg)

theorem slots_update (t : Fin nOfile → Option (Fin nFile)) (fd : Fin nOfile)
    (o : Option (Fin nFile)) (f : Fin nFile) :
    slots (update t fd o) f + (if t fd = some f then 1 else 0) =
      slots t f + if o = some f then 1 else 0 :=
  sum_update_add (fun _ o => if o = some f then 1 else 0) t fd o

theorem refs_update (tbl : Table) (p : Slot) (t : Fin nOfile → Option (Fin nFile)) (f : Fin nFile) :
    refs (update tbl p t) f + slots (tbl p) f = refs tbl f + slots t f :=
  sum_update_add (fun _ t => slots t f) tbl p t

theorem slots_pos {t : Fin nOfile → Option (Fin nFile)} {fd : Fin nOfile} {f : Fin nFile}
    (h : t fd = some f) : 0 < slots t f := by
  refine Finset.sum_pos' (fun _ _ => Nat.zero_le _) ⟨fd, Finset.mem_univ _, ?_⟩
  rw [if_pos h]
  exact Nat.one_pos

theorem refs_pos {tbl : Table} {p : Slot} {fd : Fin nOfile} {f : Fin nFile}
    (h : tbl p fd = some f) : 0 < refs tbl f :=
  Finset.sum_pos' (fun _ _ => Nat.zero_le _) ⟨p, Finset.mem_univ _, slots_pos h⟩

theorem Others.refs_pos {tbl : Table} {me : Slot} {f : Fin nFile} (h : Others tbl me f) :
    0 < refs tbl f := by
  obtain ⟨q, -, fd, hfd⟩ := h
  exact Resource.refs_pos hfd

/-! ### Changing files -/

section Files

variable {tbl : Table} {hand : Multiset (Fin nFile)} {s : State} {f : Fin nFile} {me : Slot}

theorem pipeEnd_setFile (x : File) : (fun g => ((s.setFile f x).file g).pipeEnd) =
      update (fun g => (s.file g).pipeEnd) f x.pipeEnd := by
  funext g
  by_cases hg : g = f
  · subst hg
    simp [setFile]
  · simp [setFile, hg]

variable {tbl' : Table} {hand' : Multiset (Fin nFile)}

theorem Files.setFile (h : Files tbl hand s) (x : File) (href : x.ref = refs tbl' f + hand'.count f)
    (hothers : ∀ g, g ≠ f → refs tbl' g + hand'.count g = refs tbl g + hand.count g)
    (hnone : x.ref = 0 → x.type = .none) (hend : x.pipeEnd = (s.file f).pipeEnd)
    (hread : x.type = .pipe → x.readable = !x.writable) : Files tbl' hand' (s.setFile f x) where
  ref_eq g := by
    by_cases hg : g = f
    · subst hg
      simpa [State.setFile] using href
    · simpa [State.setFile, hg] using (h.ref_eq g).trans (hothers g hg).symm
  none_of_ref g := by
    by_cases hg : g = f
    · subst hg
      simpa [State.setFile] using hnone
    · simpa [State.setFile, hg] using h.none_of_ref g
  ends := by
    rw [pipeEnd_setFile, hend]
    have hsame : update (fun g => (s.file g).pipeEnd) f (s.file f).pipeEnd =
        fun g => (s.file g).pipeEnd := update_eq_self f _
    rw [hsame]
    exact h.ends
  alive := h.alive
  readable g := by
    by_cases hg : g = f
    · subst hg
      simpa [State.setFile] using hread
    · simpa [State.setFile, hg] using h.readable g

theorem count_cons_of_ne {g : Fin nFile} (hg : g ≠ f) : (f ::ₘ hand).count g = hand.count g :=
  Multiset.count_cons_of_ne hg hand

theorem Files.alloc (h : Files tbl hand s) (hf : (s.file f).ref = 0) :
    Files tbl (f ::ₘ hand) (s.setFile f { s.file f with ref := 1 }) := by
  have hzero := h.ref_eq f
  refine h.setFile _ ?_ (fun g hg => by rw [count_cons_of_ne hg]) (by simp) rfl (h.readable f)
  rw [count_cons_self]
  change 1 = _
  omega

theorem Files.dup (h : Files tbl hand s) :
    Files tbl (f ::ₘ hand) (s.setFile f { s.file f with ref := (s.file f).ref + 1 }) := by
  have href := h.ref_eq f
  refine h.setFile _ ?_ (fun g hg => by rw [count_cons_of_ne hg]) (by simp) rfl (h.readable f)
  rw [count_cons_self]
  change (s.file f).ref + 1 = _
  omega

theorem Files.drop (h : Files tbl (f ::ₘ hand) s) (hf : 1 < (s.file f).ref) :
    Files tbl hand (s.setFile f { s.file f with ref := (s.file f).ref - 1 }) := by
  have href := h.ref_eq f
  rw [count_cons_self] at href
  refine h.setFile _ ?_ (fun g hg => by rw [count_cons_of_ne hg]) (fun h0 => ?_) rfl (h.readable f)
  · change (s.file f).ref - 1 = _
    omega
  · change (s.file f).ref - 1 = 0 at h0
    omega

theorem Files.publish (h : Files tbl hand s) (hpos : 0 < (s.file f).ref)
    (hf : (s.file f).type = .none) (r w : Bool) :
    Files tbl hand
      (s.setFile f { s.file f with type := .inode, readable := r, writable := w }) := by
  refine h.setFile _ (h.ref_eq f) (fun _ _ => rfl) (fun h0 => ?_) ?_ (by simp)
  · change (s.file f).ref = 0 at h0
    omega
  · simp [File.pipeEnd, hf]

theorem Files.move (h : Files tbl hand s)
    (hmove : ∀ g, refs tbl' g + hand'.count g = refs tbl g + hand.count g) :
    Files tbl' hand' s where
  ref_eq g := (h.ref_eq g).trans (hmove g).symm
  none_of_ref := h.none_of_ref
  ends := h.ends
  alive := h.alive
  readable := h.readable

theorem Files.congr {s' : State} (h : Files tbl hand s) (hfile : s'.file = s.file)
    (hpipe : s'.pipe = s.pipe) : Files tbl hand s' where
  ref_eq := by
    rw [hfile]
    exact h.ref_eq
  none_of_ref := by
    rw [hfile]
    exact h.none_of_ref
  ends := by
    have hopened : s'.opened = s.opened := by
      funext x
      rw [opened, opened, hpipe]
    rw [hfile, hopened]
    exact h.ends
  alive := by
    rw [hpipe]
    exact h.alive
  readable := by
    rw [hfile]
    exact h.readable

theorem Files.put (h : Files tbl (f ::ₘ hand) s) {p : Slot} {fd : Fin nOfile}
    (hfd : tbl p fd = none) :
    Files (update tbl p (update (tbl p) fd (some f))) hand s := by
  refine h.move fun g => ?_
  have h1 := refs_update tbl p (update (tbl p) fd (some f)) g
  have h2 := slots_update (tbl p) fd (some f) g
  rw [hfd] at h2
  by_cases hg : g = f
  · subst hg
    rw [count_cons_self]
    simp only [reduceCtorEq, if_false, if_true] at h2
    omega
  · rw [count_cons_of_ne hg]
    simp only [reduceCtorEq, if_false, Option.some.injEq, Ne.symm hg] at h2
    omega

theorem Files.pull (h : Files tbl hand s) {p : Slot} {fd : Fin nOfile} (hfd : tbl p fd = some f) :
    Files (update tbl p (update (tbl p) fd none)) (f ::ₘ hand) s := by
  refine h.move fun g => ?_
  have h1 := refs_update tbl p (update (tbl p) fd none) g
  have h2 := slots_update (tbl p) fd none g
  rw [hfd] at h2
  by_cases hg : g = f
  · subst hg
    rw [count_cons_self]
    simp only [reduceCtorEq, if_false, if_true] at h2
    omega
  · rw [count_cons_of_ne hg]
    simp only [reduceCtorEq, if_false, Option.some.injEq, Ne.symm hg] at h2
    omega

theorem Files.ref_pos (h : Files tbl (f ::ₘ hand) s) : 0 < (s.file f).ref := by
  rw [h.ref_eq f, count_cons_self]
  omega

theorem Files.one_lt_ref (h : Files tbl (f ::ₘ hand) s) (ho : Others tbl me f) :
    1 < (s.file f).ref := by
  have := ho.refs_pos
  rw [h.ref_eq f, count_cons_self]
  omega

theorem Files.ref_ne_zero (h : Files tbl hand s) (ho : Others tbl me f) : (s.file f).ref ≠ 0 := by
  have := ho.refs_pos
  rw [h.ref_eq f]
  omega

end Files

/-! ### The functions of `file.c` and `pipe.c` -/

section Wp

variable {α : Type} {E : Panic → Prop} {s : State}

@[simp] theorem wp_onMem (c : M α) (Q : α → State → Prop) :
    Wp E (onMem c) Q s ↔ Wp E c (fun a m => Q a { s with mem := m }) s.mem := by
  simp only [Wp, onMem]
  cases c s.mem <;> rfl

@[simp] theorem wp_modifyProc (p : Slot) (g : Process → Process) (Q : Unit → State → Prop) :
    Wp E (modifyProc p g) Q s ↔ Q () (s.setProc p (g (s.proc p))) := .rfl

@[simp] theorem wp_modifyFile (f : Fin nFile) (g : File → File) (Q : Unit → State → Prop) :
    Wp E (modifyFile f g) Q s ↔ Q () (s.setFile f (g (s.file f))) := .rfl

@[simp] theorem wp_setOfile (p : Slot) (fd : Fin nOfile) (o : Option (Fin nFile))
    (Q : Unit → State → Prop) :
    Wp E (setOfile p fd o) Q s ↔ Q () (s.setOfile p fd o) := .rfl

theorem wp_filealloc {Q : Option (Fin nFile) → State → Prop} (hnone : Q none s)
    (hsome : ∀ f, (s.file f).ref = 0 → Q (some f) (s.setFile f { s.file f with ref := 1 })) :
    Wp E filealloc Q s := by
  simp only [filealloc, wp_bind, wp_get]
  split
  · next f hf => exact hsome f (by simpa using List.find?_some hf)
  · exact hnone

theorem wp_filedup {f : Fin nFile} {Q : Unit → State → Prop} (hf : 0 < (s.file f).ref)
    (h : Q () (s.setFile f { s.file f with ref := (s.file f).ref + 1 })) :
    Wp E (filedup f) Q s := by
  simp only [filedup, wp_bind, wp_get, if_neg (show ¬ (s.file f).ref < 1 by omega)]
  exact h

theorem wp_argfd {me : Slot} {fd : ℤ} {Q : Option (Fin nOfile × Fin nFile) → State → Prop}
    (hnone : Q none s) (hsome : ∀ i f, (s.proc me).ofile i = some f → Q (some (i, f)) s) :
    Wp E (argfd me fd) Q s := by
  simp only [argfd, wp_bind, wp_get]
  split_ifs with h
  · rw [wp_pure]
    cases ho : (s.proc me).ofile ⟨fd.toNat, by omega⟩ with
    | none => exact hnone
    | some f => exact hsome _ f ho
  · exact hnone

theorem wp_fdalloc {me : Slot} {f : Fin nFile} {Q : Option (Fin nOfile) → State → Prop}
    (hnone : Q none s)
    (hsome : ∀ fd, (s.proc me).ofile fd = none → Q (some fd) (s.setOfile me fd (some f))) :
    Wp E (fdalloc me f) Q s := by
  simp only [fdalloc, wp_bind, wp_get]
  split
  · next fd hfd => exact hsome fd (by simpa using List.find?_some hfd)
  · exact hnone

end Wp

section Close

variable {L : Layout} {pool : Finset Frame} {X : Multiset Frame} {tbl : Table}
  {hand : Multiset (Fin nFile)} {s : State} {me : Slot}

theorem opened_setPipe {pg : Frame} {o : Option Ends} {w : Bool}
    (hclosed : o.any (·.isOpen w) = false)
    (hother : o.any (·.isOpen !w) = (s.pipe pg).any (·.isOpen !w)) :
    (s.setPipe pg o).opened = update s.opened (pg, w) false := by
  funext ⟨pg', w'⟩
  by_cases hpg : pg' = pg
  · subst hpg
    by_cases hw : w' = w
    · subst hw
      simpa [opened, setPipe] using hclosed
    · obtain rfl : w' = !w := by cases w <;> cases w' <;> simp_all
      simpa [opened, setPipe, hw] using hother
  · have hne : (pg', w') ≠ (pg, w) := fun h => hpg (Prod.mk.inj h).1
    simp [opened, setPipe, hpg, hne]

/-- One end is closed; the page is freed with the last one. -/
theorem wp_pipeclose (hpool : InRange L pool) {pg : Frame} {w : Bool}
    (hopen : s.opened (pg, w) = true) (hP : Pages pool X s)
    (halive : ∀ pg e, s.pipe pg = some e → e.readopen = true ∨ e.writeopen = true) :
    Wp Fine (pipeclose L pg w) (fun _ s' => s'.proc = s.proc ∧ s'.kpgdir = s.kpgdir ∧
      s'.cpuStacks = s.cpuStacks ∧ s'.file = s.file ∧
      s'.opened = update s.opened (pg, w) false ∧ Pages pool X s' ∧
      ∀ pg e, s'.pipe pg = some e → e.readopen = true ∨ e.writeopen = true) s := by
  simp only [pipeclose, wp_bind, wp_get]
  cases hp : s.pipe pg with
  | none => simp [opened, hp] at hopen
  | some e =>
    have hclosed : (e.close w).isOpen w = false := by cases w <;> rfl
    have hother : (e.close w).isOpen (!w) = e.isOpen (!w) := by cases w <;> rfl
    have howned := s.owned_setPipe pg
    rw [hp] at howned
    dsimp only
    generalize e.close w = e' at hclosed hother ⊢
    split_ifs with hlast
    · -- the last end: the page is no longer owned, and then freed
      have hboth : e'.isOpen (!w) = false := by
        cases w
        · exact hlast.2
        · exact hlast.1
      simp only [wp_bind, wp_modify, wp_onMem]
      have hframes := howned none
      simp only [pipeFrames, Option.elim_some, Option.elim_none, add_zero] at hframes
      have hcons : Conserved pool (pg ::ₘ ((s.setPipe pg none).owned + X)) s.mem :=
        hP.cons.congr (by rw [← hframes, ← singleton_add]; abel)
      refine (wp_kfree hpool hcons).mono fun _ m hm => ⟨rfl, rfl, rfl, rfl, ?_,
        ⟨hm.1, hP.sound⟩, ?_⟩
      · exact opened_setPipe rfl (by rw [hp, Option.any_some, ← hother, hboth]; rfl)
      · intro pg' e'' hpg'
        by_cases hpg : pg' = pg
        · subst hpg
          simp [setPipe] at hpg'
        · exact halive pg' e'' (by simpa [setPipe, hpg] using hpg')
    · rw [wp_modify]
      have hframes := howned (some e')
      simp only [pipeFrames, Option.elim_some] at hframes
      refine ⟨rfl, rfl, rfl, rfl, ?_, ⟨hP.cons.congr ?_, hP.sound⟩, ?_⟩
      · exact opened_setPipe (by simpa using hclosed) (by rw [hp]; exact hother)
      · rw [add_right_cancel hframes]
      · intro pg' e'' hpg'
        by_cases hpg : pg' = pg
        · subst hpg
          obtain rfl : e' = e'' := by simpa [setPipe] using hpg'
          by_contra hnot
          simp only [not_or, Bool.not_eq_true] at hnot
          exact hlast hnot
        · exact halive pg' e'' (by simpa [setPipe, hpg] using hpg')

/-- The file of the last reference is released; if it was the end of a pipe, that end has no file
any more and has to be closed. -/
theorem Files.release {f : Fin nFile} (h : Files tbl (f ::ₘ hand) s) (hlast : (s.file f).ref = 1)
    {s' : State} (hfile : s'.file = (s.setFile f { s.file f with ref := 0, type := .none }).file)
    (hopened : ∀ x, (s.file f).pipeEnd = some x → s'.opened = update s.opened x false)
    (hnone : (s.file f).pipeEnd = none → s'.opened = s.opened)
    (halive : ∀ pg e, s'.pipe pg = some e → e.readopen = true ∨ e.writeopen = true) :
    Files tbl hand s' where
  ref_eq g := by
    have href := h.ref_eq g
    rw [hfile]
    by_cases hg : g = f
    · subst hg
      rw [count_cons_self] at href
      simp only [State.setFile, update_self]
      omega
    · rw [count_cons_of_ne hg] at href
      simpa [State.setFile, hg] using href
  none_of_ref g := by
    rw [hfile]
    by_cases hg : g = f
    · subst hg
      simp [State.setFile]
    · simpa [State.setFile, hg] using h.none_of_ref g
  ends := by
    rw [hfile, pipeEnd_setFile]
    cases hend : (s.file f).pipeEnd with
    | none =>
      rw [hnone hend]
      have hsame : update (fun g => (s.file g).pipeEnd) f
          ({ s.file f with ref := 0, type := .none } : File).pipeEnd =
            fun g => (s.file g).pipeEnd := by
        rw [update_eq_self_iff]
        exact hend.symm
      rw [hsame]
      exact h.ends
    | some x =>
      rw [hopened x hend]
      exact h.ends.free hend
  alive := halive
  readable g := by
    rw [hfile]
    by_cases hg : g = f
    · subst hg
      simp [State.setFile]
    · simpa [State.setFile, hg] using h.readable g

theorem Keeps.setFile {f : Fin nFile} (x : File)
    (h : Others tbl me f → x.pipeEnd = (s.file f).pipeEnd) : Keeps tbl me s (s.setFile f x) where
  proc := rfl
  kpgdir := rfl
  cpuStacks := rfl
  ends g hg := by
    by_cases hgf : g = f
    · subst hgf
      simpa [State.setFile] using h hg
    · simp [State.setFile, hgf]

/-- A reference in hand is given up. -/
theorem wp_fileclose (hpool : InRange L pool) (me : Slot) {f : Fin nFile}
    (hF : Files tbl (f ::ₘ hand) s) (hP : Pages pool X s) :
    Wp Fine (fileclose L f) (fun _ s' => Keeps tbl me s s' ∧ Files tbl hand s' ∧ Pages pool X s')
      s := by
  have hpos := hF.ref_pos
  simp only [fileclose, wp_bind, wp_get, if_neg (show ¬ (s.file f).ref < 1 by omega)]
  split_ifs with hmore
  · exact ⟨.setFile _ fun _ => rfl, hF.drop (by omega), ⟨hP.cons, hP.sound⟩⟩
  have hlast : (s.file f).ref = 1 := by omega
  -- nobody else has a descriptor for the file
  have hkeeps : Keeps tbl me s (s.setFile f { s.file f with ref := 0, type := .none }) :=
    .setFile _ fun ho => by
      have := hF.one_lt_ref ho
      omega
  simp only [wp_bind, wp_modifyFile]
  cases htype : (s.file f).type with
  | none | inode =>
    exact ⟨hkeeps, hF.release hlast rfl (fun x hx => by simp [File.pipeEnd, htype] at hx)
      (fun _ => rfl) hF.alive, ⟨hP.cons, hP.sound⟩⟩
  | pipe =>
    have hend : (s.file f).pipeEnd = some ((s.file f).pipe, (s.file f).writable) := by
      rw [File.pipeEnd, if_pos htype]
    have hclose := wp_pipeclose (s := s.setFile f { s.file f with ref := 0, type := .none }) hpool
      (hF.ends.used_of_own hend) ⟨hP.cons, hP.sound⟩ hF.alive
    refine hclose.mono fun _ s' hs' => ?_
    obtain ⟨hproc, hkpgdir, hcpu, hfile, hopened, hpages, halive⟩ := hs'
    refine ⟨hkeeps.trans ⟨hproc, hkpgdir, hcpu, fun g _ => by rw [hfile]⟩,
      hF.release hlast hfile (fun x hx => ?_) (fun hx => ?_) halive, hpages⟩
    · obtain rfl := Option.some.inj (hend.symm.trans hx)
      exact hopened
    · rw [hend] at hx
      cases hx

theorem wp_closeTwo (hpool : InRange L pool) (me : Slot) {f0 f1 : Fin nFile}
    (hF : Files tbl (f0 ::ₘ f1 ::ₘ hand) s) (hP : Pages pool X s) :
    Wp Fine (do fileclose L f0; fileclose L f1) (fun _ s' => Keeps tbl me s s' ∧
      Files tbl hand s' ∧ Pages pool X s') s := by
  rw [wp_bind]
  refine (wp_fileclose hpool me hF hP).mono fun _ s1 ⟨hk1, hF1, hP1⟩ => ?_
  exact (wp_fileclose hpool me hF1 hP1).mono fun _ s2 ⟨hk2, hF2, hP2⟩ => ⟨hk1.trans hk2, hF2, hP2⟩

end Close

section Pipe

variable {L : Layout} {pool : Finset Frame} {X : Multiset Frame} {tbl : Table}
  {hand : Multiset (Fin nFile)} {s : State} {me : Slot}

variable {pg : Frame}

theorem State.mem_owned_of_pipe {e : Ends} (h : s.pipe pg = some e) : pg ∈ s.owned := by
  have hmem : pg ∈ pipeFrames pg (s.pipe pg) := by
    rw [h]
    exact mem_singleton_self pg
  rw [owned, mem_add]
  right
  exact mem_sum_of_mem pg hmem

theorem opened_alloc (hpg : s.pipe pg = none) : (s.setPipe pg (some ⟨true, true⟩)).opened =
      update (update s.opened (pg, false) true) (pg, true) true := by
  funext ⟨pg', w⟩
  by_cases h : pg' = pg
  · subst h
    cases w <;> simp [opened, setPipe, Ends.isOpen]
  · have hne : ∀ w', (pg', w) ≠ (pg, w') := fun w' heq => h (Prod.mk.inj heq).1
    simp [opened, setPipe, h, hne]

theorem Files.makePipe (h : Files tbl hand s) (hpg : s.pipe pg = none) {f0 f1 : Fin nFile}
    (hne : f0 ≠ f1) (h0 : (s.file f0).type = .none) (hr0 : (s.file f0).ref ≠ 0)
    (h1 : (s.file f1).type = .none) (hr1 : (s.file f1).ref ≠ 0) :
    Files tbl hand (s.makePipe pg f0 f1) where
  ref_eq g := by
    rw [← h.ref_eq g]
    by_cases hg1 : g = f1
    · subst hg1
      simp [State.makePipe, State.setFile, State.setPipe]
    · by_cases hg0 : g = f0
      · subst hg0
        simp [State.makePipe, State.setFile, State.setPipe, hg1]
      · simp [State.makePipe, State.setFile, State.setPipe, hg1, hg0]
  none_of_ref g := by
    by_cases hg1 : g = f1
    · subst hg1
      simp [State.makePipe, State.setFile, State.setPipe, hr1]
    · by_cases hg0 : g = f0
      · subst hg0
        simp [State.makePipe, State.setFile, State.setPipe, hg1, hr0]
      · simpa [State.makePipe, State.setFile, State.setPipe, hg1, hg0] using h.none_of_ref g
  ends := by
    have hfree : ∀ w, s.opened (pg, w) = false := fun w => by simp [State.opened, hpg]
    have hopened : (s.makePipe pg f0 f1).opened =
        update (update s.opened (pg, false) true) (pg, true) true :=
      opened_alloc hpg
    have hends : (fun g => ((s.makePipe pg f0 f1).file g).pipeEnd) =
        update (update (fun g => (s.file g).pipeEnd) f0 (some (pg, false))) f1
          (some (pg, true)) := by
      rw [State.makePipe, pipeEnd_setFile, pipeEnd_setFile]
      rfl
    rw [hopened, hends]
    have hend0 : (s.file f0).pipeEnd = none := by simp [File.pipeEnd, h0]
    have hend1 : (s.file f1).pipeEnd = none := by simp [File.pipeEnd, h1]
    have hmem (x : Frame × Bool) : x ∈ (Finset.univ : Finset (Frame × Bool)) := by simp
    refine (h.ends.alloc (hmem _) (hfree false) hend0).alloc (hmem _) ?_ ?_
    · rw [update_of_ne (by simp)]
      exact hfree true
    · rw [update_of_ne hne.symm]
      exact hend1
  alive pg' e hp := by
    by_cases h' : pg' = pg
    · subst h'
      obtain rfl : (⟨true, true⟩ : Ends) = e := by
        simpa [State.makePipe, State.setFile, State.setPipe] using hp
      exact .inl rfl
    · exact h.alive pg' e (by simpa [State.makePipe, State.setFile, State.setPipe, h'] using hp)
  readable g := by
    by_cases hg1 : g = f1
    · subst hg1
      simp [State.makePipe, State.setFile, State.setPipe]
    · by_cases hg0 : g = f0
      · subst hg0
        simp [State.makePipe, State.setFile, State.setPipe, hg1]
      · simpa [State.makePipe, State.setFile, State.setPipe, hg1, hg0] using h.readable g

theorem Pages.makePipe (h : Pages pool X s) {m : Mem} (hm : Conserved pool (pg ::ₘ (s.owned + X)) m)
    (f0 f1 : Fin nFile) :
    s.pipe pg = none ∧ Pages pool X (({ s with mem := m } : State).makePipe pg f0 f1) := by
  have hpg : s.pipe pg = none := by
    cases hp : s.pipe pg with
    | none => rfl
    | some e =>
      exact absurd (mem_add.mpr (.inl (mem_owned_of_pipe hp))) hm.notMem_rest
  refine ⟨hpg, ⟨?_, h.sound⟩⟩
  have howned := ({ s with mem := m } : State).owned_setPipe pg (some ⟨true, true⟩)
  have hnone : ({ s with mem := m } : State).pipe pg = none := hpg
  rw [hnone] at howned
  simp only [pipeFrames, Option.elim_none, Option.elim_some, add_zero] at howned
  change Conserved pool ((({ s with mem := m } : State).setPipe pg (some ⟨true, true⟩)).owned + X) m
  rw [howned]
  refine hm.congr ?_
  rw [← singleton_add, add_comm, add_right_comm]
  rfl

theorem Files.fresh (h : Files tbl hand s) (me : Slot) {f : Fin nFile} (hf : (s.file f).ref = 0) :
    (s.file f).type = .none ∧ ¬ Others tbl me f :=
  ⟨h.none_of_ref f hf, fun ho => h.ref_ne_zero ho hf⟩

theorem Keeps.makePipe {f0 f1 : Fin nFile} (h0 : ¬ Others tbl me f0) (h1 : ¬ Others tbl me f1) :
    Keeps tbl me s (s.makePipe pg f0 f1) := by
  have hpipe : Keeps tbl me s (s.setPipe pg (some ⟨true, true⟩)) :=
    ⟨rfl, rfl, rfl, fun _ _ => rfl⟩
  refine hpipe.trans ?_
  exact (Keeps.setFile _ fun ho => absurd ho h0).trans (Keeps.setFile _ fun ho => absurd ho h1)

/-- `pipealloc` makes a pipe with both ends open and returns the files of its ends, or fails without
a trace. -/
theorem wp_pipealloc (hpool : InRange L pool) (me : Slot) (hF : Files tbl hand s)
    (hP : Pages pool X s) :
    Wp Fine (pipealloc L) (fun r s' => Keeps tbl me s s' ∧ Pages pool X s' ∧
      Files tbl (r.elim 0 (fun f => {f.1} + {f.2}) + hand) s') s := by
  simp only [pipealloc, wp_bind]
  refine wp_filealloc ⟨.refl _ _ _, hP, by simpa using hF⟩ fun f0 hr0 => ?_
  obtain ⟨htype0, ho0⟩ := hF.fresh me hr0
  have hk0 : Keeps tbl me s (s.setFile f0 { s.file f0 with ref := 1 }) := .setFile _ fun _ => rfl
  have hF0 := hF.alloc hr0
  have hP0 : Pages pool X (s.setFile f0 { s.file f0 with ref := 1 }) := ⟨hP.cons, hP.sound⟩
  have hfile0 : (s.setFile f0 { s.file f0 with ref := 1 }).file f0 =
      { s.file f0 with ref := 1 } := by simp [setFile]
  generalize s.setFile f0 { s.file f0 with ref := 1 } = s0 at hk0 hF0 hP0 hfile0 ⊢
  simp only [wp_bind]
  refine wp_filealloc ?_ fun f1 hr1 => ?_
  · simp only [wp_bind]
    refine (wp_fileclose hpool me hF0 hP0).mono ?_
    rintro _ s' ⟨hk, hF', hP'⟩
    exact ⟨hk0.trans hk, hP', by simpa using hF'⟩
  obtain ⟨htype1, ho1⟩ := hF0.fresh me hr1
  have hne : f0 ≠ f1 := by
    rintro rfl
    rw [hfile0] at hr1
    cases hr1
  have hk1 : Keeps tbl me s (s0.setFile f1 { s0.file f1 with ref := 1 }) :=
    hk0.trans (.setFile _ fun _ => rfl)
  have hF1 : Files tbl (f0 ::ₘ f1 ::ₘ hand) (s0.setFile f1 { s0.file f1 with ref := 1 }) := by
    rw [cons_swap]
    exact hF0.alloc hr1
  have hP1 : Pages pool X (s0.setFile f1 { s0.file f1 with ref := 1 }) := ⟨hP0.cons, hP0.sound⟩
  have hfile1 : (s0.setFile f1 { s0.file f1 with ref := 1 }).file f1 =
      { s0.file f1 with ref := 1 } := by simp [setFile]
  have hfile01 : (s0.setFile f1 { s0.file f1 with ref := 1 }).file f0 = s0.file f0 := by
    simp [setFile, hne]
  generalize s0.setFile f1 { s0.file f1 with ref := 1 } = s1 at hk1 hF1 hP1 hfile1 hfile01 ⊢
  simp only [wp_bind, wp_onMem]
  refine wp_kalloc hP1.cons (fun m hm _ _ => ?_) fun pg m hm _ _ => ?_
  · -- no page: both files are closed again
    have hFm : Files tbl (f0 ::ₘ f1 ::ₘ hand) { s1 with mem := m } := hF1.congr rfl rfl
    have hPm : Pages pool X { s1 with mem := m } := ⟨hm, hP1.sound⟩
    have hkm : Keeps tbl me s { s1 with mem := m } :=
      hk1.trans ⟨rfl, rfl, rfl, fun _ _ => rfl⟩
    simp only [wp_bind]
    refine (wp_fileclose hpool me hFm hPm).mono ?_
    rintro _ s2 ⟨hk2, hF2, hP2⟩
    refine (wp_fileclose hpool me hF2 hP2).mono ?_
    rintro _ s3 ⟨hk3, hF3, hP3⟩
    exact ⟨(hkm.trans hk2).trans hk3, hP3, by simpa using hF3⟩
  · obtain ⟨hpg, hPpipe⟩ := hP1.makePipe hm f0 f1
    have hFm : Files tbl (f0 ::ₘ f1 ::ₘ hand) { s1 with mem := m } := hF1.congr rfl rfl
    have hFpipe := hFm.makePipe hpg hne (by simp [hfile01, hfile0, htype0])
      (by simp [hfile01, hfile0]) (by simp [hfile1, htype1]) (by simp [hfile1])
    have hk2 : Keeps tbl me { s1 with mem := m }
        (({ s1 with mem := m } : State).makePipe pg f0 f1) := .makePipe ho0 ho1
    have hkm : Keeps tbl me s { s1 with mem := m } :=
      hk1.trans ⟨rfl, rfl, rfl, fun _ _ => rfl⟩
    refine ⟨hkm.trans hk2, hPpipe, ?_⟩
    simpa [singleton_add, add_assoc] using hFpipe

end Pipe

end Dave.Resource
