import Dave.Lib.Prog
import Mathlib.Logic.Function.Basic
import Mathlib.Logic.Relation

/-!
# Programs of several processes

Processes run programs over one state. A step of a process is one lock operation, or the beginning
of a program, with the code up to the next lock operation; a process that asks for a lock waits
until it is free. Any process that can take a step may take the next one.

To prove something about all runs, each process gets a ghost, which says what it relies on, and an
invariant `G` relates the state to all ghosts. The weakest precondition `Cwp` of a program allows
the state to change at every lock operation, as long as the invariant holds and the ghost of the
process itself is as it was left. The invariant also has an index, say an earlier state that the
present one is compared with. The index is the same at the beginning and at the end of a step, but
any index will do, so that the invariant says what every single step may do.
-/

namespace Interleave

open Function

variable {σ ε L T α β P γ ι ρ : Type}

/-! ### Processes over one state -/

/-- The code up to the next lock operation: the state then, and the result or what is left. -/
def settle : Prog σ ε L T α → σ → Except ε (σ × (α ⊕ Prog σ ε L T α))
  | .ret a, s => .ok (s, .inl a)
  | .fail e, _ => .error e
  | .get k, s => settle (k s) s
  | .put s' k, _ => settle k s'
  | .acquire l t k, s => .ok (s, .inr (.acquire l t k))
  | .release l k, s => .ok (s, .inr (.release l k))
  | .pause k, s => .ok (s, .inr (.pause k))

variable (σ ε L T α P) in
/-- Processes over one state. A process without a program is between two calls; the others are at a
lock operation. After a panic nothing runs any more. -/
structure Sys where
  shared : σ
  thread : P → Option (Prog σ ε L T α)
  panic : Option ε
  /-- what the calls of a process have returned, the latest first -/
  returned : P → List α

/-- The lock that a program asks for. -/
def request : Option (Prog σ ε L T α) → Option (L × T)
  | some (.acquire l t _) => some (l, t)
  | _ => none

namespace Sys

variable [DecidableEq P]

/-- Process `p` runs `prog` from the state `s` up to the next lock operation. -/
def run (m : Sys σ ε L T α P) (p : P) (prog : Prog σ ε L T α) (s : σ) : Sys σ ε L T α P :=
  match settle prog s with
  | .error e => { m with panic := some e }
  | .ok (s', .inl a) =>
    { m with
      shared := s'
      thread := update m.thread p none
      returned := update m.returned p (a :: m.returned p) }
  | .ok (s', .inr k) => { m with shared := s', thread := update m.thread p (some k) }

variable [Locks σ L P]

open Locks

/-- Process `p` does its lock operation and goes on to the next one. -/
def resume (m : Sys σ ε L T α P) (p : P) : Option (Sys σ ε L T α P) :=
  match m.thread p with
  | some (.acquire l _ k) =>
    match owner m.shared l with
    | none => some (m.run p k (setOwner m.shared l (some p)))
    | some _ => none
  | some (.release l k) => some (m.run p k (setOwner m.shared l none))
  | some (.pause k) => some (m.run p k m.shared)
  | _ => none

end Sys

section Steps

variable [DecidableEq P] [Locks σ L P]

/-- The steps of process `p`, when the programs that a process may begin are given by `Start`, and
`ok` is a condition on the state before a process goes on. -/
inductive Step (Start : σ → P → Prog σ ε L T α → Prop) (ok : Sys σ ε L T α P → P → Prop) (p : P) :
    Sys σ ε L T α P → Sys σ ε L T α P → Prop
  | start {m : Sys σ ε L T α P} {prog : Prog σ ε L T α} (hpanic : m.panic = none)
    (hidle : m.thread p = none) (hstart : Start m.shared p prog) :
    Step Start ok p m (m.run p prog m.shared)
  | resume {m m' : Sys σ ε L T α P} (hpanic : m.panic = none) (hok : ok m p)
    (h : m.resume p = some m') : Step Start ok p m m'

def Reachable (Start : σ → P → Prog σ ε L T α → Prop) (ok : Sys σ ε L T α P → P → Prop) :
    Sys σ ε L T α P → Sys σ ε L T α P → Prop :=
  Relation.ReflTransGen fun m m' => ∃ p, Step Start ok p m m'

end Steps

/-! ### The logic -/

variable (σ ε L T P γ ι ρ) in
/-- What a proof about all runs is made of. -/
structure Logic where
  /-- the invariant -/
  G : ι → σ → (P → γ) → Prop
  /-- the ghost of a process between two calls -/
  Idle : γ → Prop
  /-- what a call may return -/
  Res : P → ρ → Prop
  /-- what the ghost says about the lock that the process asks for -/
  Label : γ → Option (L × T) → Prop
  /-- what may be assumed when a process takes a lock -/
  Ok : σ → (P → γ) → P → L → T → Prop
  /-- the errors that may occur -/
  E : ε → Prop

namespace Logic

variable [DecidableEq P] [Locks σ L P] (Λ : Logic σ ε L T P γ ι ρ) {p : P} {i : ι}

open Locks

/-- The weakest precondition of a program of process `p`. At a lock operation the process leaves a
ghost with which the invariant holds; afterwards the state is any for which the invariant holds with
that ghost, for any index. -/
def Cwp (p : P) : Prog σ ε L T α → (α → ι → σ → (P → γ) → Prop) → ι → σ → (P → γ) → Prop
  | .ret a, Q, i, s, gs => Q a i s gs
  | .fail e, _, _, _, _ => Λ.E e
  | .get k, Q, i, s, gs => Cwp p (k s) Q i s gs
  | .put s' k, Q, i, _, gs => Cwp p k Q i s' gs
  | .acquire l t k, Q, i, s, gs => ∃ g, Λ.Label g (some (l, t)) ∧ Λ.G i s (update gs p g) ∧
    ∀ i' s' gs', Λ.G i' s' gs' → gs' p = g → owner s' l = none → Λ.Ok s' gs' p l t →
      Cwp p k Q i' (setOwner s' l (some p)) gs'
  | .release l k, Q, i, s, gs => ∃ g, Λ.Label g none ∧ Λ.G i s (update gs p g) ∧
    ∀ i' s' gs', Λ.G i' s' gs' → gs' p = g → Cwp p k Q i' (setOwner s' l none) gs'
  | .pause k, Q, i, s, gs => ∃ g, Λ.Label g none ∧ Λ.G i s (update gs p g) ∧
    ∀ i' s' gs', Λ.G i' s' gs' → gs' p = g → Cwp p k Q i' s' gs'

variable {Λ}

theorem cwp_bind (prog : Prog σ ε L T α) (f : α → Prog σ ε L T β)
    (Q : β → ι → σ → (P → γ) → Prop) (i : ι) (s : σ) (gs : P → γ) :
    Λ.Cwp p (prog >>= f) Q i s gs ↔
      Λ.Cwp p prog (fun a i s gs => Λ.Cwp p (f a) Q i s gs) i s gs := by
  induction prog generalizing i s gs with
  | ret a | fail e => rfl
  | get k ih => exact ih s i s gs
  | put s' k ih => exact ih i s' gs
  | acquire l t k ih => simp only [Prog.acquire_bind, Cwp, ih]
  | release l k ih => simp only [Prog.release_bind, Cwp, ih]
  | pause k ih => simp only [Prog.pause_bind, Cwp, ih]

variable {prog : Prog σ ε L T α} {s : σ} {gs : P → γ}

theorem Cwp.mono {Q Q' : α → ι → σ → (P → γ) → Prop} (h : Λ.Cwp p prog Q i s gs)
    (hQ : ∀ a i s gs, Q a i s gs → Q' a i s gs) : Λ.Cwp p prog Q' i s gs := by
  induction prog generalizing i s gs with
  | ret a => exact hQ a i s gs h
  | fail e => exact h
  | get k ih => exact ih s h
  | put s' k ih => exact ih h
  | acquire l t k ih =>
    obtain ⟨g, hlabel, hG, hk⟩ := h
    exact ⟨g, hlabel, hG, fun i' s' gs' hG' hg' hfree hok => ih (hk i' s' gs' hG' hg' hfree hok)⟩
  | release l k ih | pause k ih =>
    obtain ⟨g, hlabel, hG, hk⟩ := h
    exact ⟨g, hlabel, hG, fun i' s' gs' hG' hg' => ih (hk i' s' gs' hG' hg')⟩

theorem cwp_lift (c : StateT σ (Except ε) α) (Q : α → ι → σ → (P → γ) → Prop) (i : ι) (s : σ)
    (gs : P → γ) : Λ.Cwp p (.lift c) Q i s gs ↔ Wp Λ.E c (fun a s' => Q a i s' gs) s := by
  simp only [Prog.lift, Cwp, Wp]
  cases c s <;> rfl

/-- The run of one process, while the others stay where they are. It may wait for ever only if the
invariant allows a lock to have an owner when the process asks for it. -/
theorem Cwp.wpx {Q : α → ι → σ → (P → γ) → Prop}
    {F : Prog.Stop ε L → Prop} (hok : ∀ s gs l t, Λ.Ok s gs p l t) (hE : ∀ e, Λ.E e → F (.panic e))
    (hwait : ∀ s gs' g l t, (∀ q, q ≠ p → gs' q = gs q) → Λ.Label g (some (l, t)) →
      Λ.G i s (update gs' p g) → owner s l ≠ none → F (.wait l))
    (h : Λ.Cwp p prog Q i s gs) :
    Prog.Wpx p F prog (fun a s' => ∃ gs', (∀ q, q ≠ p → gs' q = gs q) ∧ Q a i s' gs') s := by
  have hsame (gs : P → γ) {g : γ} {a : α} {s' : σ}
      (h : ∃ gs', (∀ q, q ≠ p → gs' q = update gs p g q) ∧ Q a i s' gs') :
      ∃ gs', (∀ q, q ≠ p → gs' q = gs q) ∧ Q a i s' gs' := by
    obtain ⟨gs', hgs, hQ⟩ := h
    exact ⟨gs', fun q hq => (hgs q hq).trans (update_of_ne hq ..), hQ⟩
  have hwait' (gs : P → γ) {g₁ : γ}
      (hwait : ∀ s gs' g l t, (∀ q, q ≠ p → gs' q = gs q) → Λ.Label g (some (l, t)) →
        Λ.G i s (update gs' p g) → owner s l ≠ none → F (.wait l)) (s : σ) (gs' : P → γ)
      (g : γ) (l : L) (t : T) (hgs : ∀ q, q ≠ p → gs' q = update gs p g₁ q) :=
    hwait s gs' g l t fun q hq => (hgs q hq).trans (update_of_ne hq ..)
  induction prog generalizing s gs with
  | ret a => exact ⟨gs, fun _ _ => rfl, h⟩
  | fail e => exact hE e h
  | get k ih => exact ih s hwait h
  | put s' k ih => exact ih hwait h
  | acquire l t k ih =>
    obtain ⟨g, hlabel, hG, hk⟩ := h
    cases hl : owner s l with
    | none =>
      have hrun := ih (hwait' gs hwait) (hk i s _ hG (update_self ..) hl (hok ..))
      have hprog : Prog.exec p (.acquire l t k) s = Prog.exec p k (setOwner s l (some p)) := by
        simp only [Prog.exec, hl]
      rw [Prog.Wpx, hprog]
      exact hrun.mono fun _ _ => hsame gs
    | some q =>
      have hstop := hwait s gs g l t (fun _ _ => rfl) hlabel hG (by simp [hl])
      simpa [Prog.Wpx, Prog.exec, hl] using hstop
  | release l k ih | pause k ih =>
    obtain ⟨g, -, hG, hk⟩ := h
    exact (ih (hwait' gs hwait) (hk i s _ hG (update_self ..))).mono fun _ _ => hsame gs

/-! ### Soundness -/

variable (Λ)

def Done (p : P) : ρ → ι → σ → (P → γ) → Prop :=
  fun a i s gs => Λ.Res p a ∧ ∃ g, Λ.Idle g ∧ Λ.Label g none ∧ Λ.G i s (update gs p g)

/-- What holds of a process whose ghost is `g`: whatever the others do, it can go on. -/
def ThreadOk (p : P) (g : γ) : Option (Prog σ ε L T ρ) → Prop
  | none => Λ.Idle g
  | some (.acquire l t k) => ∀ i s' gs', Λ.G i s' gs' → gs' p = g →
      owner s' l = none → Λ.Ok s' gs' p l t → Λ.Cwp p k (Λ.Done p) i (setOwner s' l (some p)) gs'
  | some (.release l k) => ∀ i s' gs', Λ.G i s' gs' → gs' p = g →
      Λ.Cwp p k (Λ.Done p) i (setOwner s' l none) gs'
  | some (.pause k) => ∀ i s' gs', Λ.G i s' gs' → gs' p = g → Λ.Cwp p k (Λ.Done p) i s' gs'
  | some _ => False

/-- The invariant of the processes together. -/
structure Inv (i : ι) (m : Sys σ ε L T ρ P) (gs : P → γ) : Prop where
  shared : Λ.G i m.shared gs
  returned : ∀ p, ∀ a ∈ m.returned p, Λ.Res p a
  label : ∀ p, Λ.Label (gs p) (request (m.thread p))
  thread : ∀ p, Λ.ThreadOk p (gs p) (m.thread p)

variable {Λ}

/-- What running a program up to the next lock operation establishes. -/
theorem settle_spec {prog : Prog σ ε L T ρ} (h : Λ.Cwp p prog (Λ.Done p) i s gs) :
    match settle prog s with
    | .error e => Λ.E e
    | .ok (s', .inl a) => Λ.Res p a ∧ ∃ g, Λ.Label g none ∧ Λ.G i s' (update gs p g) ∧
        Λ.ThreadOk p g (none : Option (Prog σ ε L T ρ))
    | .ok (s', .inr k) => ∃ g, Λ.Label g (request (some k)) ∧
        Λ.G i s' (update gs p g) ∧ Λ.ThreadOk p g (some k) := by
  induction prog generalizing s with
  | ret a =>
    obtain ⟨ha, g, hidle, hlabel, hG⟩ := h
    exact ⟨ha, g, hlabel, hG, hidle⟩
  | fail e => exact h
  | get k ih => exact ih s h
  | put s' k ih => exact ih h
  | acquire l t k ih | release l k ih | pause k ih => exact h

/-- A process that runs up to the next lock operation keeps the invariant. -/
theorem Inv.run {m : Sys σ ε L T ρ P} {prog : Prog σ ε L T ρ} (h : Λ.Inv i m gs)
    (hpanic : ∀ e, m.panic = some e → Λ.E e) (hprog : Λ.Cwp p prog (Λ.Done p) i s gs) :
    (∃ gs, Λ.Inv i (m.run p prog s) gs) ∧ ∀ e, (m.run p prog s).panic = some e → Λ.E e := by
  have hupdate {g : γ} {s' : σ} {o : Option (Prog σ ε L T ρ)} {rs : P → List ρ}
      (hrs : ∀ q, ∀ a ∈ rs q, Λ.Res q a) (hlabel : Λ.Label g (request o))
      (hG : Λ.G i s' (update gs p g)) (ho : Λ.ThreadOk p g o) :
      Λ.Inv i { m with shared := s', thread := update m.thread p o, returned := rs }
        (update gs p g) := by
    refine ⟨hG, hrs, fun q => ?_, fun q => ?_⟩
    · by_cases hq : q = p
      · subst hq
        simpa only [update_self] using hlabel
      · simpa only [update_of_ne hq] using h.label q
    · by_cases hq : q = p
      · subst hq
        simpa only [update_self] using ho
      · simpa only [update_of_ne hq] using h.thread q
  have hsettle := settle_spec hprog
  unfold Sys.run
  split at hsettle
  · exact ⟨⟨gs, h.shared, h.returned, h.label, h.thread⟩, fun e he => Option.some.inj he ▸ hsettle⟩
  · obtain ⟨ha, g, hlabel, hG, ho⟩ := hsettle
    refine ⟨⟨_, hupdate (fun q b hb => ?_) hlabel hG ho⟩, hpanic⟩
    by_cases hq : q = p
    · subst hq
      rw [update_self, List.mem_cons] at hb
      rcases hb with rfl | hb
      · exact ha
      · exact h.returned q b hb
    · rw [update_of_ne hq] at hb
      exact h.returned q b hb
  · obtain ⟨g, hlabel, hG, ho⟩ := hsettle
    exact ⟨⟨_, hupdate h.returned hlabel hG ho⟩, hpanic⟩

section Sound

variable {Start : σ → P → Prog σ ε L T ρ → Prop} {ok : Sys σ ε L T ρ P → P → Prop}
  {m m' m₀ : Sys σ ε L T ρ P}

/-- A step keeps the invariant, when every program that may begin satisfies its weakest
precondition and the condition on the steps gives what the logic assumes. -/
theorem Inv.step (h : Λ.Inv i m gs) (hpanic : ∀ e, m.panic = some e → Λ.E e)
    (hstart : ∀ i s p prog gs, Start s p prog → Λ.G i s gs → Λ.Idle (gs p) →
      Λ.Cwp p prog (Λ.Done p) i s gs)
    (hok : ∀ m gs p l t, (∃ i, Λ.G i m.shared gs) → (∀ q, Λ.Label (gs q) (request (m.thread q))) →
      request (m.thread p) = some (l, t) → ok m p → Λ.Ok m.shared gs p l t)
    (hstep : Step Start ok p m m') :
    (∃ gs, Λ.Inv i m' gs) ∧ ∀ e, m'.panic = some e → Λ.E e := by
  cases hstep with
  | start _ hidle hs =>
    refine h.run hpanic (hstart _ _ _ _ gs hs h.shared ?_)
    have hthread := h.thread p
    rwa [hidle] at hthread
  | resume _ hokm hm =>
    have hthread := h.thread p
    rw [Sys.resume] at hm
    split at hm
    · rename_i l t k hp
      rw [hp] at hthread
      split at hm
      · rename_i hfree
        obtain rfl := Option.some.inj hm
        have hlock := hok m gs p l t ⟨i, h.shared⟩ h.label (by rw [hp]; rfl) hokm
        exact h.run hpanic (hthread _ _ gs h.shared rfl hfree hlock)
      · cases hm
    · rename_i l k hp
      rw [hp] at hthread
      obtain rfl := Option.some.inj hm
      exact h.run hpanic (hthread _ _ gs h.shared rfl)
    · rename_i k hp
      rw [hp] at hthread
      obtain rfl := Option.some.inj hm
      exact h.run hpanic (hthread _ _ gs h.shared rfl)
    · cases hm

/-- The invariant holds in every reachable state, and only the given errors occur. -/
theorem sound {gs₀ : P → γ} (h₀ : Λ.Inv i m₀ gs₀) (hpanic : m₀.panic = none)
    (hstart : ∀ i s p prog gs, Start s p prog → Λ.G i s gs → Λ.Idle (gs p) →
      Λ.Cwp p prog (Λ.Done p) i s gs)
    (hok : ∀ m gs p l t, (∃ i, Λ.G i m.shared gs) → (∀ q, Λ.Label (gs q) (request (m.thread q))) →
      request (m.thread p) = some (l, t) → ok m p → Λ.Ok m.shared gs p l t)
    (hreach : Reachable Start ok m₀ m) :
    (∃ gs, Λ.Inv i m gs) ∧ ∀ e, m.panic = some e → Λ.E e := by
  induction hreach with
  | refl => exact ⟨⟨gs₀, h₀⟩, fun e he => by simp [hpanic] at he⟩
  | tail _ hstep ih =>
    obtain ⟨⟨gs, h⟩, hp⟩ := ih
    obtain ⟨p, hstep⟩ := hstep
    exact h.step hp hstart hok hstep

end Sound

/-! ### Triples -/

variable (Λ) in
/-- If process `p` begins `prog` with the ghost `g`, it ends with a result and a ghost that
satisfy `Q`. -/
def Triple (p : P) (g : γ) (prog : Prog σ ε L T α) (Q : α → γ → Prop) : Prop :=
  ∀ i s gs, Λ.G i s (update gs p g) →
    Λ.Cwp p prog (fun a i s gs => ∃ g', Q a g' ∧ Λ.G i s (update gs p g')) i s gs

namespace Triple

variable {g : γ}

variable {prog : Prog σ ε L T α} {f : α → Prog σ ε L T β} {Q : α → γ → Prop} {R : β → γ → Prop}

theorem bind (h : Λ.Triple p g prog Q) (hf : ∀ a g', Q a g' → Λ.Triple p g' (f a) R) :
    Λ.Triple p g (prog >>= f) R := by
  intro i s gs hG
  rw [cwp_bind]
  exact (h i s gs hG).mono fun a i' s' gs' ⟨g', hQ, hG'⟩ => hf a g' hQ i' s' gs' hG'

/-- Sequential composition, when the first part ends with a known ghost. -/
theorem seq (g₁ : γ) (h : Λ.Triple p g prog (fun _ g' => g' = g₁)) (hf : ∀ a, Λ.Triple p g₁ (f a) R)
    :
    Λ.Triple p g (prog >>= f) R :=
  h.bind fun a _ hg' => hg' ▸ hf a

theorem mono {R : α → γ → Prop} (h : Λ.Triple p g prog Q) (hQ : ∀ a g', Q a g' → R a g') :
    Λ.Triple p g prog R := by
  intro i s gs hG
  exact (h i s gs hG).mono fun a _ _ _ ⟨g', hg', hG'⟩ => ⟨g', hQ a g' hg', hG'⟩

theorem ret {a : α} (h : Q a g) :
    Λ.Triple p g (.ret a : Prog σ ε L T α) Q := fun _ _ _ hG => ⟨g, h, hG⟩

theorem fail {e : ε} (h : Λ.E e) : Λ.Triple p g (.fail e : Prog σ ε L T α) Q := fun _ _ _ _ => h

/-- Code without lock operations, which may also change the ghost. -/
theorem lift {c : StateT σ (Except ε) α}
    (h : ∀ {i : ι} s gs, Λ.G i s gs → gs p = g →
      Wp Λ.E c (fun a s' => ∃ g', Q a g' ∧ Λ.G i s' (update gs p g')) s) :
    Λ.Triple p g (.lift c : Prog σ ε L T α) Q := by
  intro i s gs hG
  rw [cwp_lift]
  refine (h s _ hG (update_self ..)).mono fun a s' ⟨g', hQ, hG'⟩ => ⟨g', hQ, ?_⟩
  rwa [update_idem] at hG'

/-- A change of the ghost alone. -/
theorem ghost (g' : γ) (hG : ∀ {i : ι} s gs, Λ.G i s gs → gs p = g → Λ.G i s (update gs p g'))
    (h : Λ.Triple p g' prog Q) : Λ.Triple p g prog Q := by
  intro i s gs hG'
  refine h i s gs ?_
  have := hG s _ hG' (update_self ..)
  rwa [update_idem] at this

/-- Taking a lock. While it waits, the process leaves the ghost `g₁`. -/
theorem acq {l : L} {t : T} {Q : Unit → γ → Prop} (g₁ : γ) (hlabel : Λ.Label g₁ (some (l, t)))
    (hG : ∀ {i : ι} s gs, Λ.G i s gs → gs p = g → Λ.G i s (update gs p g₁))
    (h : ∀ {i : ι} s gs, Λ.G i s gs → gs p = g₁ → owner s l = none → Λ.Ok s gs p l t →
      ∃ g', Q () g' ∧ Λ.G i (setOwner s l (some p)) (update gs p g')) :
    Λ.Triple p g (.acq l t : Prog σ ε L T Unit) Q := by
  intro i s gs hG'
  refine ⟨g₁, hlabel, ?_, fun _ s' gs' hG' hg' hfree hok => h s' gs' hG' hg' hfree hok⟩
  have := hG s _ hG' (update_self ..)
  rwa [update_idem] at this

/-- Giving a lock back. -/
theorem rel {l : L} {Q : Unit → γ → Prop} (hlabel : Λ.Label g none)
    (h : ∀ {i : ι} s gs, Λ.G i s gs → gs p = g →
      ∃ g', Q () g' ∧ Λ.G i (setOwner s l none) (update gs p g')) :
    Λ.Triple p g (.rel l : Prog σ ε L T Unit) Q :=
  fun _ _ _ hG => ⟨g, hlabel, hG, fun _ s' gs' hG' hg' => h s' gs' hG' hg'⟩

/-- A point where others may run. -/
theorem yield {Q : Unit → γ → Prop} (hlabel : Λ.Label g none) (h : Q () g) :
    Λ.Triple p g (.yield : Prog σ ε L T Unit) Q := by
  refine fun _ _ _ hG => ⟨g, hlabel, hG, fun _ s' gs' hG' hg' => ⟨g, h, ?_⟩⟩
  rwa [← hg', update_eq_self]

end Triple

end Logic

end Interleave
