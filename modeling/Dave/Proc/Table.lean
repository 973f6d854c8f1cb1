import Mathlib.Data.Fin.Basic
import Mathlib.Data.List.FinRange
import Mathlib.Data.List.Induction
import Mathlib.Logic.Function.Basic

/-!
# The process table

`struct proc` and the functions of `proc.c` that scan the process table while they hold
`ptable.lock`. Each function here is the body of one such section, or of the part of it that looks
at the table: `wakeup1`, `kill`, the search of `allocproc`, the scan of `wait`, and the loop of
`exit` that hands the children of the exiting process to `initproc`.
-/

namespace Dave.Proc

open Function List

/-! ### `struct proc` -/

/-- `NPROC`, the number of slots of the table. -/
def nproc : ℕ := 64

/-- A slot of the process table; a `struct proc *` points to one. -/
abbrev Slot := Fin nproc

/-- An `int` process identifier. -/
abbrev Pid := BitVec 32

/-- `enum procstate`. -/
inductive State where
  | unused
  | embryo
  | sleeping
  | runnable
  | running
  | zombie
  deriving DecidableEq, Repr

/-- The states of a process that has started and not exited. -/
def State.live : State → Bool
  | .sleeping | .runnable | .running => true
  | _ => false

/-- The addresses that processes sleep on: a process (in `wait`) or another object. -/
inductive Chan where
  | proc (p : Slot)
  | object (a : ℕ)
  deriving DecidableEq

/-- The part of `struct proc` that the functions of `proc.c` synchronise on; a null pointer is
`none`. -/
structure Entry where
  state : State
  pid : Pid
  parent : Option Slot
  chan : Option Chan
  killed : Bool
  deriving DecidableEq

/-- `ptable.proc`. -/
abbrev Table := Slot → Entry

/-- The process that `userinit` creates, in the first slot. -/
def initproc : Slot := ⟨0, by decide⟩

/-! ### Scans of the table -/

/-- `wakeup1`: every process asleep on `chan` becomes runnable. -/
def wakeup1 (chan : Option Chan) (t : Table) : Table := fun s =>
  if (t s).state = .sleeping ∧ (t s).chan = chan then { t s with state := .runnable } else t s

/-- What `kill` does to the slot it finds. -/
def Entry.kill (e : Entry) : Entry :=
  { e with
    killed := true
    state := if e.state = .sleeping then .runnable else e.state }

/-- `kill`: the first slot with the given `pid`, in whatever state, is marked. -/
def kill (t : Table) (pid : Pid) : ℤ × Table :=
  match (finRange nproc).find? fun s => (t s).pid = pid with
  | some s => (0, update t s (t s).kill)
  | none => (-1, t)

/-- The first `UNUSED` slot, which `allocproc` takes. -/
def freeSlot (t : Table) : Option Slot := (finRange nproc).find? fun s => (t s).state = .unused

/-- The first child of `p` that has exited, which `wait` reaps. -/
def zombieChild (t : Table) (p : Slot) : Option Slot :=
  (finRange nproc).find? fun s => (t s).parent = some p ∧ (t s).state = .zombie

/-- `havekids` in `wait`, after a scan that found no exited child. -/
def HasKids (t : Table) (p : Slot) : Prop := ∃ s, (t s).parent = some p

instance (t : Table) (p : Slot) : Decidable (HasKids t p) := by
  unfold HasKids
  infer_instance

/-- One round of the loop of `exit`: a child `s` of `p` is handed to `initproc`, which is woken up
if the child has exited. -/
def adopt (p : Slot) (t : Table) (s : Slot) : Table :=
  if (t s).parent = some p then
    let t' := update t s { t s with parent := some initproc }
    if (t s).state = .zombie then wakeup1 (some (.proc initproc)) t' else t'
  else t

/-- The loop of `exit` over the table. -/
def abandon (p : Slot) (t : Table) : Table := (finRange nproc).foldl (adopt p) t

/-! ### Tables with woken processes -/

/-- `e'` is `e`, or `e` made runnable if it was sleeping; `killed` may differ. -/
structure Woken (e e' : Entry) : Prop where
  pid : e'.pid = e.pid
  parent : e'.parent = e.parent
  chan : e'.chan = e.chan
  state : e'.state = e.state ∨ e.state = .sleeping ∧ e'.state = .runnable

theorem Woken.refl (e : Entry) : Woken e e := ⟨rfl, rfl, rfl, .inl rfl⟩

theorem Woken.trans {e e' e'' : Entry} (h : Woken e e') (h' : Woken e' e'') : Woken e e'' := by
  refine ⟨h'.pid.trans h.pid, h'.parent.trans h.parent, h'.chan.trans h.chan, ?_⟩
  rcases h.state with hs | ⟨hsl, hs⟩
  · rw [← hs]
    exact h'.state
  · rcases h'.state with hs' | ⟨hsl', -⟩
    · exact .inr ⟨hsl, hs'.trans hs⟩
    · simp [hs] at hsl'

theorem Woken.kill (e : Entry) : Woken e e.kill := by
  refine ⟨rfl, rfl, rfl, ?_⟩
  by_cases hs : e.state = .sleeping
  · exact .inr ⟨hs, by simp [Entry.kill, hs]⟩
  · exact .inl (by simp [Entry.kill, hs])

/-- `t'` is `t` with some sleeping processes made runnable. -/
def Wakes (t t' : Table) : Prop := ∀ s, Woken (t s) (t' s)

theorem Wakes.refl (t : Table) : Wakes t t := fun s => .refl (t s)

variable {t : Table}

theorem Wakes.trans {t' t'' : Table} (h : Wakes t t') (h' : Wakes t' t'') : Wakes t t'' :=
  fun s => (h s).trans (h' s)

theorem Wakes.update {t' : Table} (h : Wakes t t') (s : Slot) {e e' : Entry} (he : Woken e e') :
    Wakes (update t s e) (update t' s e') := by
  intro x
  by_cases hx : x = s
  · subst hx
    simpa only [update_self] using he
  · simpa only [update_of_ne hx] using h x

theorem wakes_wakeup1 (chan : Option Chan) (t : Table) : Wakes t (wakeup1 chan t) := by
  intro s
  unfold wakeup1
  split_ifs with h
  · exact ⟨rfl, rfl, rfl, .inr ⟨h.1, rfl⟩⟩
  · exact .refl _

theorem not_sleeping_wakeup1 (chan : Option Chan) (t : Table) (s : Slot) :
    ¬ ((wakeup1 chan t s).state = .sleeping ∧ (wakeup1 chan t s).chan = chan) := by
  unfold wakeup1
  split_ifs with h
  · simp
  · exact h

namespace Woken

variable {e e' : Entry} (h : Woken e e')
include h

theorem live : e'.state.live = e.state.live := by
  rcases h.state with hs | ⟨hsl, hs⟩
  · rw [hs]
  · rw [hs, hsl]
    rfl

theorem state_iff {st : State} (h₁ : st ≠ .sleeping) (h₂ : st ≠ .runnable) :
    e'.state = st ↔ e.state = st := by
  rcases h.state with hs | ⟨hsl, hs⟩
  · rw [hs]
  · simp [hs, hsl, h₁.symm, h₂.symm]

theorem state_of_ne (hs : e.state ≠ .sleeping) : e'.state = e.state :=
  h.state.resolve_right fun hsl => hs hsl.1

theorem sleeping (hs : e'.state = .sleeping) : e.state = .sleeping := by
  rcases h.state with hs' | ⟨hsl, -⟩
  · exact hs'.symm.trans hs
  · exact hsl

end Woken

/-! ### What the scans find -/

theorem kill_of_forall {pid : Pid} (h : ∀ s, (t s).pid ≠ pid) : kill t pid = (-1, t) := by
  have hnone : (finRange nproc).find? (fun s => (t s).pid = pid) = none :=
    find?_eq_none.mpr fun s _ => by simpa using h s
  simp only [kill, hnone]

theorem exists_kill {pid : Pid} (h : ∃ s, (t s).pid = pid) :
    ∃ s, (t s).pid = pid ∧ kill t pid = (0, update t s (t s).kill) := by
  cases hfind : (finRange nproc).find? (fun s => (t s).pid = pid) with
  | none =>
    obtain ⟨s, hs⟩ := h
    have := find?_eq_none.mp hfind s (mem_finRange s)
    simp [hs] at this
  | some s =>
    refine ⟨s, by simpa using find?_some hfind, ?_⟩
    simp only [kill, hfind]

theorem wakes_kill (t : Table) (pid : Pid) : Wakes t (kill t pid).2 := by
  by_cases hex : ∃ s, (t s).pid = pid
  · obtain ⟨s, -, hkill⟩ := exists_kill hex
    have hw := (Wakes.refl t).update s (Woken.kill (t s))
    rw [update_eq_self] at hw
    simpa only [hkill] using hw
  · rw [kill_of_forall fun s hs => hex ⟨s, hs⟩]
    exact .refl t

variable {s : Slot}

theorem state_of_freeSlot (h : freeSlot t = some s) : (t s).state = .unused := by
  simpa using find?_some h

variable {p : Slot}

theorem of_zombieChild (h : zombieChild t p = some s) :
    (t s).parent = some p ∧ (t s).state = .zombie := by
  simpa using find?_some h

theorem not_zombie_of_zombieChild_eq_none (h : zombieChild t p = none) (s : Slot)
    (hs : (t s).parent = some p) : (t s).state ≠ .zombie := by
  have := find?_eq_none.mp h s (mem_finRange s)
  simpa [hs] using this

/-! ### Abandoned children -/

/-- The entry of `s` after it was handed over, up to wakeups. -/
def reparent (p : Slot) (e : Entry) : Entry :=
  if e.parent = some p then { e with parent := some initproc } else e

@[simp] theorem reparent_state (p : Slot) (e : Entry) : (reparent p e).state = e.state := by
  unfold reparent
  split_ifs <;> rfl

@[simp] theorem reparent_pid (p : Slot) (e : Entry) : (reparent p e).pid = e.pid := by
  unfold reparent
  split_ifs <;> rfl

@[simp] theorem reparent_chan (p : Slot) (e : Entry) : (reparent p e).chan = e.chan := by
  unfold reparent
  split_ifs <;> rfl

theorem reparent_parent (p : Slot) (e : Entry) :
    (reparent p e).parent = if e.parent = some p then some initproc else e.parent := by
  unfold reparent
  split_ifs <;> rfl

/-- What the rounds of the loop for the slots `ss` do: the children among them are handed over, and
`initproc` does not sleep in `wait` if one of them has exited. -/
structure Adopted (p : Slot) (ss : List Slot) (t t' : Table) : Prop where
  wakes : Wakes (fun s => if s ∈ ss then reparent p (t s) else t s) t'
  woken : (∃ s ∈ ss, (t s).parent = some p ∧ (t s).state = .zombie) →
    ¬ ((t' initproc).state = .sleeping ∧ (t' initproc).chan = some (.proc initproc))

theorem Adopted.adopt {ss : List Slot} {t' : Table} (h : Adopted p ss t t') (hs : s ∉ ss) :
    Adopted p (ss ++ [s]) t (adopt p t' s) := by
  have hparent : (t' s).parent = (t s).parent := by simpa [hs] using (h.wakes s).parent
  have hzombie : (t' s).state = .zombie ↔ (t s).state = .zombie := by
    simpa [hs] using (h.wakes s).state_iff (by simp : State.zombie ≠ .sleeping) (by simp)
  have hbase : (fun x => if x ∈ ss ++ [s] then reparent p (t x) else t x) =
      update (fun x => if x ∈ ss then reparent p (t x) else t x) s (reparent p (t s)) := by
    funext x
    by_cases hx : x = s
    · subst hx; simp
    · simp [hx]
  unfold Proc.adopt
  rw [hparent]
  by_cases hp : (t s).parent = some p
  · rw [if_pos hp]
    have hentry : Woken (reparent p (t s)) { t' s with parent := some initproc } := by
      have hws : Woken (t s) (t' s) := by simpa [hs] using h.wakes s
      rw [reparent, if_pos hp]
      exact ⟨hws.pid, rfl, hws.chan, hws.state⟩
    have hw := h.wakes.update s hentry
    rw [← hbase] at hw
    by_cases hz : (t s).state = .zombie
    · rw [if_pos (hzombie.mpr hz)]
      exact ⟨hw.trans (wakes_wakeup1 _ _), fun _ => not_sleeping_wakeup1 _ _ _⟩
    · rw [if_neg (mt hzombie.mp hz)]
      refine ⟨hw, ?_⟩
      rintro ⟨x, hx, hxp, hxz⟩
      have hxs : x ∈ ss := by
        rcases mem_append.mp hx with hx | hx
        · exact hx
        · rw [mem_singleton.mp hx] at hxz
          exact absurd hxz hz
      have hwoken := h.woken ⟨x, hxs, hxp, hxz⟩
      by_cases hi : initproc = s
      · simpa [← hi] using hwoken
      · simpa [hi] using hwoken
  · rw [if_neg hp]
    have hentry : reparent p (t s) = t s := by simp [reparent, hp]
    refine ⟨?_, ?_⟩
    · rw [hbase, hentry, update_eq_self_iff.mpr (by simp [hs])]
      exact h.wakes
    · rintro ⟨x, hx, hxp, hxz⟩
      rcases mem_append.mp hx with hx | hx
      · exact h.woken ⟨x, hx, hxp, hxz⟩
      · rw [mem_singleton.mp hx] at hxp
        exact absurd hxp hp

theorem Adopted.foldl (p : Slot) (t : Table) (ss : List Slot) (hss : ss.Nodup) :
    Adopted p ss t (ss.foldl (Proc.adopt p) t) := by
  induction ss using reverseRecOn with
  | nil => exact ⟨by simpa using Wakes.refl t, by simp⟩
  | append_singleton ss s ih =>
    rw [foldl_append]
    have hnodup := nodup_append.mp hss
    exact (ih hnodup.1).adopt fun hmem => hnodup.2.2 s hmem s (by simp) rfl

theorem wakes_abandon (p : Slot) (t : Table) : Wakes (fun s => reparent p (t s)) (abandon p t) := by
  simpa [abandon] using (Adopted.foldl p t (finRange nproc) (nodup_finRange _)).wakes

theorem abandon_woken (p : Slot) (t : Table) (hs : (t s).parent = some p)
    (hz : (t s).state = .zombie) : ¬ ((abandon p t initproc).state = .sleeping ∧
      (abandon p t initproc).chan = some (.proc initproc)) :=
  (Adopted.foldl p t (finRange nproc) (nodup_finRange _)).woken
    ⟨s, mem_finRange s, hs, hz⟩

theorem Woken.reparent {e e' : Entry} (h : Woken e e') (p : Slot) :
    Woken (Proc.reparent p e) (Proc.reparent p e') := by
  unfold Proc.reparent
  rw [h.parent]
  split_ifs
  · exact ⟨h.pid, rfl, h.chan, h.state⟩
  · exact h

/-- The table that `exit` leaves behind, but for the state of the exiting process. -/
def exitTable (p : Slot) (t : Table) : Table := abandon p (wakeup1 ((t p).parent.map .proc) t)

theorem wakes_exitTable (p : Slot) (t : Table) :
    Wakes (fun s => reparent p (t s)) (exitTable p t) := by
  have hw : Wakes (fun s => reparent p (t s))
      (fun s => reparent p (wakeup1 ((t p).parent.map .proc) t s)) :=
    fun s => (wakes_wakeup1 _ t s).reparent p
  exact hw.trans (wakes_abandon p _)

/-- `exit` leaves nobody asleep in `wait` who gets a new child that has exited: neither the parent
of the exiting process nor `initproc` when it adopts one. -/
theorem exitTable_woken {q : Slot} (hpq : (t p).parent = some q) :
    ¬ ((exitTable p t q).state = .sleeping ∧ (exitTable p t q).chan = some (.proc q)) := by
  rintro ⟨hs, hc⟩
  have hw : Woken (reparent p (wakeup1 ((t p).parent.map .proc) t q)) (exitTable p t q) :=
    wakes_abandon p (wakeup1 ((t p).parent.map .proc) t) q
  rw [hpq] at hw
  refine not_sleeping_wakeup1 (some (.proc q)) t q ⟨?_, ?_⟩
  · simpa using hw.sleeping hs
  · simpa using hw.chan.symm.trans hc

theorem exitTable_woken_init (hs : (t s).parent = some p) (hz : (t s).state = .zombie) :
    ¬ ((exitTable p t initproc).state = .sleeping ∧
      (exitTable p t initproc).chan = some (.proc initproc)) := by
  have hw := wakes_wakeup1 ((t p).parent.map .proc) t s
  exact abandon_woken p _ (hw.parent.trans hs) ((hw.state_iff (by simp) (by simp)).mpr hz)

end Dave.Proc
