import Dave.Fs.Sys
import Dave.Resource.Calls

/-!
# Two models of the descriptors

The file table and the descriptors are part of the state of the file system and of the state that
the resources are counted in. As long as no file is a pipe, of which the file system knows nothing,
the functions on descriptors do the same in both.

## Main definitions

* `Agree`: the two states have the same descriptors, reference counts and types of files.
* `Sim`: two programs do the same to states that agree.

## Main results

* `filealloc_sim`, `filedup_sim`, `filedrop_sim`, `argfd_sim`, `setOfile_sim`, `fdalloc_sim`: the
  functions of `file.c` and those on the table of a process.
* `sysDup_sim`, `forkFiles_sim`: the call `dup`, and the loop of `fork`.
-/

namespace Dave.Resource

open Memory (Layout)
open Fs (nFile nOfile)
open Proc (Slot)
open Function

/-- The type of a file in the state of the file system. -/
def FileType.ofFs : Fs.FileType → FileType
  | .none => .none
  | .inode => .inode

/-- The two states have the same descriptors and the same files. -/
structure Agree (s : Fs.State Slot) (t : State) : Prop where
  ofile : ∀ p, (t.proc p).ofile = (s.proc p).ofile
  ref : ∀ f, (t.file f).ref = (s.ftable f).ref
  type : ∀ f, (t.file f).type = .ofFs (s.ftable f).type

/-- From states that agree both programs return, related values and states that agree, or both
panic. -/
def Sim {α β : Type} (c : Fs.M Slot α) (c' : K β) (R : α → β → Prop) (s : Fs.State Slot)
    (t : State) : Prop :=
  match c s, c' t with
  | .ok (a, s'), .ok (b, t') => R a b ∧ Agree s' t'
  | .error _, .error _ => True
  | _, _ => False

section Rules

variable {α β γ δ : Type} {s : Fs.State Slot} {t : State} {R : α → β → Prop} {S : γ → δ → Prop}

theorem Sim.bind {c : Fs.M Slot α} {c' : K β} {k : α → Fs.M Slot γ} {k' : β → K δ}
    (h : Sim c c' R s t) (hk : ∀ a b s' t', R a b → Agree s' t' → Sim (k a) (k' b) S s' t') :
    Sim (c >>= k) (c' >>= k') S s t := by
  simp only [Sim, Bind.bind, StateT.bind, Except.bind] at h ⊢
  cases hc : c s with
  | error e =>
    cases hc' : c' t with
    | error e' => trivial
    | ok x => simp [hc, hc'] at h
  | ok x =>
    cases hc' : c' t with
    | error e' => simp [hc, hc'] at h
    | ok y =>
      rw [hc, hc'] at h
      exact hk _ _ _ _ h.1 h.2

theorem Sim.get {k : Fs.State Slot → Fs.M Slot γ} {k' : State → K δ} (h : Sim (k s) (k' t) S s t) :
    Sim (MonadState.get >>= k) (MonadState.get >>= k') S s t := h

theorem Sim.pure {a : α} {b : β} (hR : R a b) (h : Agree s t) :
    Sim (Pure.pure a) (Pure.pure b) R s t := ⟨hR, h⟩

theorem Sim.modify {f : Fs.State Slot → Fs.State Slot} {g : State → State}
    (h : Agree (f s) (g t)) : Sim (modify f) (modify g) (fun _ _ => True) s t := ⟨trivial, h⟩

end Rules

variable {s : Fs.State Slot} {t : State}

namespace Agree

variable (h : Agree s t)

include h

theorem setFile (f : Fin nFile) {x : Fs.File} {y : File} (href : y.ref = x.ref)
    (htype : y.type = .ofFs x.type) : Agree (s.setFile f x) (t.setFile f y) where
  ofile := h.ofile
  ref g := by
    by_cases hg : g = f
    · subst hg
      simpa [State.setFile] using href
    · simpa [State.setFile, hg] using h.ref g
  type g := by
    by_cases hg : g = f
    · subst hg
      simpa [State.setFile] using htype
    · simpa [State.setFile, hg] using h.type g

theorem setOfile (p : Slot) (fd : Fin nOfile) (o : Option (Fin nFile)) :
    Agree (s.setProc p { s.proc p with ofile := update (s.proc p).ofile fd o })
      (t.setOfile p fd o) where
  ofile q := by
    by_cases hq : q = p
    · subst hq
      simp [State.setOfile, h.ofile]
    · simpa [State.setOfile, State.setProc, hq] using h.ofile q
  ref := h.ref
  type := h.type

end Agree

/-! ### Files -/

theorem filealloc_sim (h : Agree s t) : Sim Fs.filealloc filealloc Eq s t := by
  refine .get ?_
  simp only [h.ref]
  cases (List.finRange nFile).find? fun f => decide ((s.ftable f).ref = 0) with
  | none => exact .pure rfl h
  | some f =>
    exact .bind (.modify (h.setFile f rfl (h.type f))) fun _ _ _ _ _ h' => .pure rfl h'

theorem filedup_sim (h : Agree s t) (f : Fin nFile) :
    Sim (Fs.filedup f) (filedup f) (fun _ _ => True) s t := by
  refine .get ?_
  simp only [h.ref]
  split_ifs
  · trivial
  · exact .modify (h.setFile f (by simp only [h.ref]) (h.type f))

/-- The `ftable.lock` section of `fileclose`; what follows it in the model of the resources is
about pipes. -/
theorem filedrop_sim (L : Layout) (h : Agree s t) (f : Fin nFile) :
    Sim (Fs.filedrop f) (fileclose L f) (fun _ _ => True) s t := by
  refine .get ?_
  simp only [h.ref]
  split_ifs
  · trivial
  · trivial
  · rw [← bind_pure (modifyFile f _)]
    refine .bind (.modify (h.setFile f ?_ ?_)) fun _ _ _ _ _ h' => .pure trivial h'
    · simp only [h.ref]
    · exact h.type f
  · refine .bind (.modify (h.setFile f rfl rfl)) fun _ _ _ _ _ h' => ?_
    rw [h.type f]
    cases (s.ftable f).type with
    | none | inode => exact .pure trivial h'

/-! ### Descriptors -/

theorem argfd_sim (h : Agree s t) (me : Slot) (fd : ℤ) :
    Sim (Fs.argfd me fd) (argfd me fd) Eq s t := by
  refine .get ?_
  simp only [h.ofile]
  split_ifs
  · exact .pure rfl h
  · exact .pure rfl h

theorem setOfile_sim (h : Agree s t) (p : Slot) (fd : Fin nOfile) (o : Option (Fin nFile)) :
    Sim (Fs.setOfile p fd o) (setOfile p fd o) (fun _ _ => True) s t :=
  .modify (h.setOfile p fd o)

theorem fdalloc_sim (h : Agree s t) (me : Slot) (f : Fin nFile) :
    Sim (Fs.fdalloc me f) (fdalloc me f) Eq s t := by
  refine .get ?_
  simp only [h.ofile]
  cases (List.finRange nOfile).find? fun fd => decide ((s.proc me).ofile fd = none) with
  | none => exact .pure rfl h
  | some fd => exact .bind (setOfile_sim h me fd _) fun _ _ _ _ _ h' => .pure rfl h'

/-- `dup` does the same to the descriptors and the file table in both models. -/
theorem sysDup_sim (h : Agree s t) (me : Slot) (fd : ℤ) :
    ∃ c : Fs.M Slot ℤ, Fs.sysDup me fd = .lift c ∧
      Sim c (sysDup me fd) (fun _ _ => True) s t := by
  refine ⟨_, rfl, .bind (argfd_sim h me fd) ?_⟩
  rintro (_ | ⟨_, f⟩) _ s₁ t₁ rfl h₁
  · exact .pure trivial h₁
  refine .bind (fdalloc_sim h₁ me f) ?_
  rintro (_ | i) _ s₂ t₂ rfl h₂
  · exact .pure trivial h₂
  · change Sim _ (filedup f) _ s₂ t₂
    rw [← bind_pure (filedup f)]
    exact .bind (filedup_sim h₂ f) fun _ _ _ _ _ h₃ => .pure trivial h₃

/-- The loop of `fork` gives the child the same descriptors in both models. -/
theorem forkFiles_sim (h : Agree s t) (me np : Slot) :
    Sim (Fs.forkFiles me np) (dupFiles me np (List.finRange nOfile)) (fun _ _ => True) s t := by
  rw [Fs.forkFiles]
  generalize List.finRange nOfile = fds
  induction fds generalizing s t with
  | nil => exact .pure trivial h
  | cons fd fds ih =>
    change Sim (_ >>= fun _ => fds.forM _) _ _ s t
    rw [bind_assoc, dupFiles]
    refine .get ?_
    rw [h.ofile]
    cases (s.proc me).ofile fd with
    | none =>
      rw [pure_bind]
      exact ih h
    | some f =>
      rw [bind_assoc]
      exact .bind (filedup_sim h f) fun _ _ _ _ _ h₁ =>
        .bind (setOfile_sim h₁ np fd _) fun _ _ _ _ _ h₂ => ih h₂

end Dave.Resource
