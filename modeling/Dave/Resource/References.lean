import Dave.Resource.Boot

/-!
# File references and the life of pipes

In every run of any processes, with `kalloc`, `filealloc` and `fdalloc` failing at any call, the
reference count of every file is the number of descriptors for it, an end of a pipe is open exactly
as long as there is a file for it, and the page of a pipe is freed with its last end.
-/

namespace Dave.Resource

open Memory
open Fs (nFile nOfile)
open Proc (Slot nproc initproc)

/-! ### Closing pipes -/

section Frees

variable {L : Layout} {s s' s'' : State} {me : Slot}

/-- No frame is allocated, and a page that is no longer a pipe is free. -/
structure Frees (s s' : State) : Prop where
  freelist : ∀ f ∈ s.mem.freelist, f ∈ s'.mem.freelist
  pipe : ∀ pg, s.pipe pg ≠ none → s'.pipe pg = none → pg ∈ s'.mem.freelist

theorem Frees.of_eq (hmem : s'.mem = s.mem) (hpipe : s'.pipe = s.pipe) : Frees s s' where
  freelist f hf := by rwa [hmem]
  pipe pg hpg hnone := absurd (hpipe ▸ hnone) hpg

theorem Frees.setOfile {fd : Fin nOfile} {o : Option (Fin nFile)} :
    Frees s (s.setOfile me fd o) := .of_eq rfl rfl

theorem Frees.trans (h : Frees s s') (h' : Frees s' s'') : Frees s s'' where
  freelist f hf := h'.freelist f (h.freelist f hf)
  pipe pg hpg hnone := by
    by_cases hmid : s'.pipe pg = none
    · exact h'.freelist pg (h.pipe pg hpg hmid)
    · exact h'.pipe pg hmid hnone

theorem wp_pipeclose_frees (pg : Frame) (w : Bool) :
    Wp (fun _ => True) (pipeclose L pg w) (fun _ s' => Frees s s') s := by
  simp only [pipeclose, wp_bind, wp_get]
  cases hp : s.pipe pg with
  | none => trivial
  | some e =>
    dsimp only
    split_ifs
    · simp only [wp_bind, wp_modify, wp_onMem, kfree]
      split_ifs
      · trivial
      · refine ⟨fun f hf => List.mem_cons_of_mem _ hf, fun pg' hpg' hnone => ?_⟩
        by_cases h : pg' = pg
        · subst h
          exact List.mem_cons_self ..
        · exact absurd (by simpa [State.setPipe, h] using hnone) hpg'
    · refine ⟨fun f hf => hf, fun pg' hpg' hnone => ?_⟩
      by_cases h : pg' = pg
      · subst h
        simp [State.setPipe] at hnone
      · exact absurd (by simpa [State.setPipe, h] using hnone) hpg'

theorem wp_fileclose_frees (f : Fin nFile) :
    Wp (fun _ => True) (fileclose L f) (fun _ s' => Frees s s') s := by
  have hfile (x : File) : Frees s (s.setFile f x) := .of_eq rfl rfl
  simp only [fileclose, wp_bind, wp_get]
  by_cases href : (s.file f).ref < 1
  · simp only [if_pos href, wp_bind]
    split_ifs <;> trivial
  rw [if_neg href]
  split_ifs
  · exact hfile _
  · simp only [wp_bind, wp_modifyFile]
    split
    · exact (wp_pipeclose_frees _ _).mono fun _ _ h => (hfile _).trans h
    · exact hfile _
    · exact hfile _

theorem wp_sysClose_frees (fd : ℤ) :
    Wp (fun _ => True) (sysClose L me fd) (fun _ s' => Frees s s') s := by
  rw [sysClose, wp_bind]
  refine wp_argfd (.of_eq rfl rfl) fun i f _ => ?_
  simp only [wp_bind, wp_setOfile]
  exact (wp_fileclose_frees f).mono fun _ _ h => Frees.setOfile.trans h

theorem wp_closeFiles_frees (l : List (Fin nOfile)) :
    Wp (fun _ => True) (closeFiles L me l) (fun _ s' => Frees s s') s := by
  induction l generalizing s with
  | nil => exact .of_eq rfl rfl
  | cons fd l ih =>
    rw [closeFiles, wp_bind, wp_get]
    cases (s.proc me).ofile fd with
    | none => exact ih
    | some f =>
      simp only [wp_bind]
      refine (wp_fileclose_frees f).mono fun _ s₁ h₁ => ?_
      exact ih.mono fun _ s₂ h₂ => (h₁.trans .setOfile).trans h₂

theorem wp_exit_frees : Wp (fun _ => True) (exit L me) (fun _ s' => Frees s s') s := by
  rw [exit]
  split_ifs
  · trivial
  · rw [wp_bind]
    exact (wp_closeFiles_frees _).mono fun _ s₁ h₁ => h₁.trans (.of_eq rfl rfl)

end Frees

/-! ### Every run -/

section Exact

variable {L : Layout} {P : Finset Frame} {s : State}

variable {pg : Frame}

theorem pipeEnd_eq_some {x : File} {w : Bool} :
    x.pipeEnd = some (pg, w) ↔ x.type = .pipe ∧ x.pipe = pg ∧ x.writable = w := by
  simp only [File.pipeEnd, Option.ite_none_right_eq_some, Option.some.injEq, Prod.mk.injEq]

theorem Inv.ref_pos_of_pipe (h : Inv P s) {f : Fin nFile} (hf : (s.file f).type = .pipe) :
    0 < (s.file f).ref := by
  refine Nat.pos_of_ne_zero fun h0 => ?_
  rw [h.files.none_of_ref f h0] at hf
  cases hf

theorem Inv.isOpen_iff (h : Inv P s) {e : Ends} (he : s.pipe pg = some e) (w : Bool) :
    e.isOpen w = true ↔ ∃ f, 0 < (s.file f).ref ∧ (s.file f).type = .pipe ∧
      (s.file f).pipe = pg ∧ (s.file f).writable = w := by
  have hopened : s.opened (pg, w) = e.isOpen w := by rw [State.opened, he, Option.any_some]
  rw [← hopened, h.files.ends.used_iff (by simp)]
  refine exists_congr fun f => ?_
  rw [pipeEnd_eq_some]
  exact ⟨fun hf => ⟨h.ref_pos_of_pipe hf.1, hf⟩, fun hf => hf.2⟩

theorem Inv.pipe_ne_none (h : Inv P s) {f : Fin nFile} (hf : (s.file f).type = .pipe) :
    s.pipe (s.file f).pipe ≠ none := by
  have hused := h.files.ends.used_of_own (pipeEnd_eq_some.mpr ⟨hf, rfl, rfl⟩)
  intro hnone
  simp [State.opened, hnone] at hused

theorem Inv.pipe_notMem (h : Inv P s) (hpg : s.pipe pg ≠ none) : pg ∉ s.mem.freelist := by
  obtain ⟨e, he⟩ := Option.ne_none_iff_exists'.mp hpg
  exact h.pages.cons.disjoint (Multiset.mem_add.mpr (.inl (State.mem_owned_of_pipe he)))

theorem Inv.count_free (h : Inv P s) {f : Frame} (hf : f ∈ s.mem.freelist) :
    s.mem.freelist.count f = 1 :=
  List.count_eq_one_of_mem h.pages.cons.nodup hf

/-- **File references are exact, and pipes live exactly as long as they are referenced.** -/
theorem files_exact {s₀ : State} {es : List (Slot × Call)} (hboot : Boots L s₀)
    (hrun : Runs L s₀ es s) :
    (∀ f, (s.file f).ref = ∑ p, ∑ fd, if (s.proc p).ofile fd = some f then 1 else 0) ∧
    (∀ f, (s.file f).ref = 0 → (s.file f).type = .none) ∧
    (∀ pg e, s.pipe pg = some e →
      (e.readopen = true ↔ ∃ f, 0 < (s.file f).ref ∧ (s.file f).type = .pipe ∧
        (s.file f).pipe = pg ∧ (s.file f).readable = true) ∧
      (e.writeopen = true ↔ ∃ f, 0 < (s.file f).ref ∧ (s.file f).type = .pipe ∧
        (s.file f).pipe = pg ∧ (s.file f).writable = true) ∧
      (e.readopen = true ∨ e.writeopen = true) ∧ pg ∉ s.mem.freelist) ∧
    (∀ f, 0 < (s.file f).ref → (s.file f).type = .pipe → s.pipe (s.file f).pipe ≠ none) ∧
    (∀ (p : Slot) (call : Call), (s.proc p).state = .live → ∀ e, call.run L p s = .error e →
      e ≠ .filedup ∧ e ≠ .fileclose ∧ e ≠ .freedPipe ∧ e ≠ .kfree) ∧
    (∀ (p : Slot) (call : Call) (s' : State), (s.proc p).state = .live →
      (call = .exit ∨ ∃ fd, call = .close fd) →
      call.run L p s = .ok ((), s') → ∀ pg, s.pipe pg ≠ none → s'.pipe pg = none →
        s'.mem.freelist.count pg = 1) ∧
    s.mem.refreed = false := by
  have hP := inRange_pool L
  have h : Inv (pool L) s := hboot.inv.run hP hrun
  refine ⟨fun f => ?_, h.files.none_of_ref, fun pg e he => ⟨?_, h.isOpen_iff he true,
    h.files.alive pg e he, h.pipe_notMem (by simp [he])⟩, fun f _ => h.pipe_ne_none,
    fun p call hlive e he => ?_, fun p call s' hlive hcall hs' pg hpg hnone => ?_,
    h.pages.cons.refreed⟩
  · have href := h.files.ref_eq f
    rwa [Multiset.count_zero, add_zero, refs] at href
  · rw [show e.readopen = e.isOpen false from rfl, h.isOpen_iff he false]
    refine exists_congr fun f => and_congr_right fun _ => and_congr_right fun hf => ?_
    rw [h.files.readable f hf, Bool.not_eq_true']
  · obtain ⟨hkfree, hfiledup, hfileclose, hfreed⟩ := (h.call hP hlive call).of_error he
    exact ⟨hfiledup, hfileclose, hfreed, hkfree⟩
  · have h' : Inv (pool L) s' := (h.call hP hlive call).of_ok hs'
    refine h'.count_free ?_
    rcases hcall with rfl | ⟨fd, rfl⟩
    · exact (wp_exit_frees.of_ok hs').pipe pg hpg hnone
    · exact ((wp_sysClose_frees fd).of_ok hs').pipe pg hpg hnone

theorem files_exact_pipeForkClose : ∃ s₀ s, Boots tiny s₀ ∧
    Runs tiny s₀ [(initproc, .pipe), (initproc, .fork), (child, .close 0), (initproc, .close 0)] s ∧
    (s.file 1).ref = 2 ∧ (s.proc initproc).ofile 1 = some 1 ∧
    (s.file 1).ref = ∑ p, ∑ fd, if (s.proc p).ofile fd = some 1 then 1 else 0 := by
  have hvalue : (bootAndRun tiny [(initproc, .pipe), (initproc, .fork), (child, .close 0),
      (initproc, .close 0)]).map (fun r => (r.1.mem.failed, (r.2.file 1).ref,
        (r.2.proc initproc).ofile 1)) = some (false, 2, some 1) := by decide +kernel
  obtain ⟨⟨s₀, s⟩, hs, heq⟩ := Option.map_eq_some_iff.mp hvalue
  simp only [Prod.mk.injEq] at heq
  obtain ⟨hboot, hrun⟩ := boots_of_bootAndRun hs heq.1
  exact ⟨s₀, s, hboot, hrun, heq.2.1, heq.2.2, (files_exact hboot hrun).1 1⟩

end Exact

end Dave.Resource
