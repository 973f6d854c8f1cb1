import Mathlib.Tactic.Common

/-!
# Programs with locks

A small language for kernel code that reads and writes a shared state, may stop with an error, and
takes and gives back sleeping locks. The code between two lock operations is an ordinary function
on the state; the lock operations are visible, because they are where another process may run.

A program is run in two ways: alone, from beginning to end (`Prog.exec`), where asking for a lock
that is not free is waiting for ever; and together with others (`Interleave`).
-/

/-- Programs over a state `σ`, with errors `ε`, locks `L`, and the reasons `T` for taking a lock. -/
inductive Prog (σ ε L T α : Type) : Type where
  | ret (a : α)
  | fail (e : ε)
  | get (k : σ → Prog σ ε L T α)
  | put (s : σ) (k : Prog σ ε L T α)
  | acquire (l : L) (t : T) (k : Prog σ ε L T α)
  | release (l : L) (k : Prog σ ε L T α)
  /-- a point where another process may run, without a lock operation of this one -/
  | pause (k : Prog σ ε L T α)

/-- A state that holds locks: who owns a lock, and the state after its owner changed. -/
class Locks (σ : Type) (L P : outParam Type) where
  owner : σ → L → Option P
  setOwner : σ → L → Option P → σ

/-! ### Code without lock operations -/

section Wp

variable {σ ε α β : Type} {E : ε → Prop}

/-- The weakest precondition of code without lock operations, for a postcondition `Q` and the
errors `E` it may stop with. -/
def Wp (E : ε → Prop) (m : StateT σ (Except ε) α) (Q : α → σ → Prop) (s : σ) : Prop :=
  match m s with
  | .ok (a, s') => Q a s'
  | .error e => E e

theorem pure_eq_ok (a : α) (s : σ) : (StateT.pure a : StateT σ (Except ε) α) s = .ok (a, s) := rfl

variable {m : StateT σ (Except ε) α} {Q Q' : α → σ → Prop} {s : σ}

theorem Wp.mono (h : Wp E m Q s) (hQ : ∀ a s', Q a s' → Q' a s') : Wp E m Q' s := by
  unfold Wp at h ⊢
  cases hm : m s with
  | error e => simpa [hm] using h
  | ok r =>
    simp only [hm] at h
    exact hQ r.1 r.2 h

variable {E' : ε → Prop}

theorem Wp.and (h : Wp E m Q s) (h' : Wp E' m Q' s) : Wp E m (fun a t => Q a t ∧ Q' a t) s := by
  unfold Wp at h h' ⊢
  cases hm : m s with
  | error e => simpa [hm] using h
  | ok r =>
    simp only [hm] at h h'
    exact ⟨h, h'⟩

/-- The errors that two specifications allow. -/
theorem Wp.and_error (h : Wp E m Q s) (h' : Wp E' m Q' s) :
    Wp (fun e => E e ∧ E' e) m (fun a t => Q a t ∧ Q' a t) s := by
  unfold Wp at h h' ⊢
  cases hm : m s with
  | error e | ok r =>
    simp only [hm] at h h'
    exact ⟨h, h'⟩

theorem Wp.of_true (m : StateT σ (Except ε) α) (s : σ) :
    Wp (fun _ => True) m (fun _ _ => True) s := by
  unfold Wp
  cases m s <;> trivial

theorem Wp.weaken (h : Wp E m Q s) (hE : ∀ e, E e → E' e) : Wp E' m Q s := by
  unfold Wp at h ⊢
  cases hm : m s with
  | error e => exact hE e (by simpa [hm] using h)
  | ok r => simpa [hm] using h

variable {s' : σ} {a : α}

theorem wp_of_ok (h : m s = .ok (a, s')) : Wp E m Q s ↔ Q a s' := by
  simp [Wp, h]

theorem Wp.of_ok (h : Wp E m Q s) (hm : m s = .ok (a, s')) :
    Q a s' := (wp_of_ok hm).mp h

theorem Wp.of_error {e : ε} (h : Wp E m Q s) (hm : m s = .error e) : E e := by
  simpa [Wp, hm] using h

/-- Code that cannot fail returns a result. -/
theorem Wp.exists_ok (h : Wp (fun _ => False) m Q s) : ∃ a s', m s = .ok (a, s') ∧ Q a s' := by
  unfold Wp at h
  cases hm : m s with
  | error e => simp [hm] at h
  | ok r =>
    simp only [hm] at h
    exact ⟨r.1, r.2, rfl, h⟩

/-- Code that cannot fail and has one possible result returns that result. -/
theorem eq_ok_of_wp (h : Wp (fun _ => False) m (fun b t => b = a ∧ t = s') s) :
    m s = .ok (a, s') := by
  unfold Wp at h
  cases hm : m s with
  | error e => simp [hm] at h
  | ok r =>
    simp only [hm] at h
    rw [← h.1, ← h.2]

@[simp] theorem wp_pure (a : α) (Q : α → σ → Prop) (s : σ) :
    Wp E (pure a : StateT σ (Except ε) α) Q s ↔ Q a s := .rfl

@[simp] theorem wp_bind (m : StateT σ (Except ε) α) (f : α → StateT σ (Except ε) β)
    (Q : β → σ → Prop) (s : σ) :
    Wp E (m >>= f) Q s ↔ Wp E m (fun a s' => Wp E (f a) Q s') s := by
  simp only [Wp, bind, StateT.bind, Except.bind]
  cases m s <;> rfl

@[simp] theorem wp_get (Q : σ → σ → Prop) (s : σ) :
    Wp E (get : StateT σ (Except ε) σ) Q s ↔ Q s s := .rfl

@[simp] theorem wp_modify (f : σ → σ) (Q : PUnit → σ → Prop) (s : σ) :
    Wp E (modify f : StateT σ (Except ε) PUnit) Q s ↔ Q ⟨⟩ (f s) := .rfl

@[simp] theorem wp_ite (c : Prop) [Decidable c] (m m' : StateT σ (Except ε) α) (Q : α → σ → Prop)
    (s : σ) : Wp E (if c then m else m') Q s ↔ if c then Wp E m Q s else Wp E m' Q s := by
  split <;> rfl

@[simp] theorem wp_throw (e : ε) (Q : α → σ → Prop) (s : σ) :
    Wp E (throw e : StateT σ (Except ε) α) Q s ↔ E e := .rfl

/-- The rule for a loop over a list, with an invariant for the number of rounds done. -/
theorem wp_forM {xs : List β} {f : β → StateT σ (Except ε) PUnit} (I : ℕ → σ → Prop)
    (hstep : ∀ k (hk : k < xs.length) t, I k t →
      Wp E (f (xs.get ⟨k, hk⟩)) (fun _ t' => I (k + 1) t') t)
    (h0 : I 0 s) : Wp E (xs.forM f) (fun _ t => I xs.length t) s := by
  induction xs generalizing s I with
  | nil => exact h0
  | cons x xs ih =>
    change Wp E (f x >>= fun _ => xs.forM f) _ s
    rw [wp_bind]
    refine (hstep 0 (Nat.succ_pos _) s h0).mono fun _ t ht => ?_
    exact ih (fun k => I (k + 1)) (fun k hk t h => hstep (k + 1) (Nat.succ_lt_succ hk) t h) ht

end Wp

namespace Prog

variable {σ ε L T α β : Type}

/-- Sequential composition. -/
protected def bind : Prog σ ε L T α → (α → Prog σ ε L T β) → Prog σ ε L T β
  | ret a, f => f a
  | fail e, _ => fail e
  | get k, f => get fun s => (k s).bind f
  | put s k, f => put s (k.bind f)
  | acquire l t k, f => acquire l t (k.bind f)
  | release l k, f => release l (k.bind f)
  | pause k, f => pause (k.bind f)

instance : Monad (Prog σ ε L T) where
  pure := ret
  bind := Prog.bind

@[simp] theorem ret_bind (a : α) (f : α → Prog σ ε L T β) :
    (ret a : Prog σ ε L T α) >>= f = f a := rfl

@[simp] theorem pure_eq_ret (a : α) : (pure a : Prog σ ε L T α) = ret a := rfl

@[simp] theorem get_bind (k : σ → Prog σ ε L T α) (f : α → Prog σ ε L T β) :
    get k >>= f = get fun s => k s >>= f := rfl

@[simp] theorem put_bind (s : σ) (k : Prog σ ε L T α) (f : α → Prog σ ε L T β) :
    put s k >>= f = put s (k >>= f) := rfl

@[simp] theorem acquire_bind (l : L) (t : T) (k : Prog σ ε L T α) (f : α → Prog σ ε L T β) :
    acquire l t k >>= f = acquire l t (k >>= f) := rfl

@[simp] theorem release_bind (l : L) (k : Prog σ ε L T α) (f : α → Prog σ ε L T β) :
    release l k >>= f = release l (k >>= f) := rfl

@[simp] theorem pause_bind (k : Prog σ ε L T α) (f : α → Prog σ ε L T β) :
    pause k >>= f = pause (k >>= f) := rfl

/-- Code without lock operations, as a program. -/
def lift (m : StateT σ (Except ε) α) : Prog σ ε L T α :=
  get fun s => match m s with
    | .ok (a, s') => put s' (ret a)
    | .error e => fail e

/-- The lock operations as programs of their own. -/
def acq (l : L) (t : T) : Prog σ ε L T Unit := acquire l t (ret ())

@[inherit_doc acq]
def rel (l : L) : Prog σ ε L T Unit := release l (ret ())

@[inherit_doc acq]
def yield : Prog σ ε L T Unit := pause (ret ())

/-! ### The run of one process -/

/-- Why a run did not return: an error, or waiting for a lock that nobody will give back. -/
inductive Stop (ε L : Type) where
  | panic (e : ε)
  | wait (l : L)
  deriving DecidableEq

section Exec

variable {P : Type} [Locks σ L P]

open Locks

/-- The run of a program by process `me` while no other process runs. -/
def exec (me : P) : Prog σ ε L T α → σ → Except (Stop ε L) (α × σ)
  | ret a, s => .ok (a, s)
  | fail e, _ => .error (.panic e)
  | get k, s => exec me (k s) s
  | put s' k, _ => exec me k s'
  | acquire l _ k, s =>
    match owner s l with
    | none => exec me k (setOwner s l (some me))
    | some _ => .error (.wait l)
  | release l k, s => exec me k (setOwner s l none)
  | pause k, s => exec me k s

/-- The weakest precondition of a run. -/
def Wpx (me : P) (E : Stop ε L → Prop) (p : Prog σ ε L T α) (Q : α → σ → Prop) (s : σ) : Prop :=
  match exec me p s with
  | .ok (a, s') => Q a s'
  | .error e => E e

variable {me : P} {E : Stop ε L → Prop}

theorem exec_bind (p : Prog σ ε L T α) (f : α → Prog σ ε L T β) (s : σ) : exec me (p >>= f) s =
      match exec me p s with
      | .ok (a, s') => exec me (f a) s'
      | .error e => .error e := by
  induction p generalizing s with
  | ret a | fail e => rfl
  | get k ih => exact ih s s
  | put s' k ih => exact ih s'
  | acquire l t k ih =>
    simp only [acquire_bind, exec]
    cases owner s l with
    | none => exact ih _
    | some q => rfl
  | release l k ih => exact ih _
  | pause k ih => exact ih s

variable {s : σ}

/-- Code without lock operations that returns. -/
theorem exec_lift_of_ok {m : StateT σ (Except ε) α} {s' : σ} {a : α} (h : m s = .ok (a, s')) :
    exec me (lift m : Prog σ ε L T α) s = .ok (a, s') := by
  simp only [lift, exec, h]

@[simp] theorem wpx_bind (p : Prog σ ε L T α) (f : α → Prog σ ε L T β) (Q : β → σ → Prop) (s : σ) :
    Wpx me E (p >>= f) Q s ↔ Wpx me E p (fun a s' => Wpx me E (f a) Q s') s := by
  simp only [Wpx, exec_bind]
  cases exec me p s <;> rfl

@[simp] theorem wpx_ret (a : α) (Q : α → σ → Prop) (s : σ) :
    Wpx me E (ret a : Prog σ ε L T α) Q s ↔ Q a s := .rfl

@[simp] theorem wpx_yield (Q : Unit → σ → Prop) (s : σ) :
    Wpx me E (yield : Prog σ ε L T Unit) Q s ↔ Q () s := .rfl

@[simp] theorem wpx_rel (l : L) (Q : Unit → σ → Prop) (s : σ) :
    Wpx me E (rel l : Prog σ ε L T Unit) Q s ↔ Q () (setOwner s l none) := .rfl

variable {Q : Unit → σ → Prop}

theorem wpx_acq {l : L} {t : T} (h : owner s l = none) :
    Wpx me E (acq l t : Prog σ ε L T Unit) Q s ↔ Q () (setOwner s l (some me)) := by
  simp [Wpx, acq, exec, h]

theorem wpx_acq_of_some {l : L} {t : T} {q : P} (h : owner s l = some q) :
    Wpx me E (acq l t : Prog σ ε L T Unit) Q s ↔ E (.wait l) := by
  simp [Wpx, acq, exec, h]

/-- Code without lock operations runs as it does alone. -/
@[simp] theorem wpx_lift (m : StateT σ (Except ε) α) (Q : α → σ → Prop) (s : σ) :
    Wpx me E (lift m : Prog σ ε L T α) Q s ↔ Wp (fun e => E (.panic e)) m Q s := by
  simp only [Wpx, lift, exec, Wp]
  cases m s <;> rfl

variable {p : Prog σ ε L T α}

theorem Wpx.mono {Q Q' : α → σ → Prop} (h : Wpx me E p Q s) (hQ : ∀ a s', Q a s' → Q' a s') :
    Wpx me E p Q' s := by
  unfold Wpx at h ⊢
  cases hp : exec me p s with
  | error e => simpa [hp] using h
  | ok r =>
    simp only [hp] at h
    exact hQ r.1 r.2 h

/-- Any run, where any outcome will do. -/
theorem Wpx.trivial (p : Prog σ ε L T α) (s : σ) :
    Wpx me (fun _ : Stop ε L => True) p (fun _ _ => True) s := by
  unfold Wpx
  cases exec me p s <;> exact True.intro

theorem Wpx.of_ok {Q : α → σ → Prop} {s' : σ} {a : α} (h : Wpx me E p Q s)
    (hp : exec me p s = .ok (a, s')) : Q a s' := by
  simpa [Wpx, hp] using h

end Exec

end Prog
