import Dave.Lib.Interleave

/-!
# What a process adds to a trace

The state of the processes may hold a trace of what has happened. Here the part of the trace that
each process has added is followed by an automaton, which says what the process may do next. A
program is checked on its own: at a lock operation the state may change in any way that an
invariant, known from elsewhere, allows.
-/

namespace Interleave

variable {σ ε L T α β P A B : Type} [Locks σ L P]

open Locks

section Logged

variable [DecidableEq P]

/-- The processes reach `m` from `m₀`, and `log p` is what process `p` has added to the trace on the
way, the latest first. -/
inductive Logged (trace : σ → List A) (Start : σ → P → Prog σ ε L T α → Prop)
    (ok : Sys σ ε L T α P → P → Prop) (m₀ : Sys σ ε L T α P) : Sys σ ε L T α P → (P → List A) → Prop
  | refl : Logged trace Start ok m₀ m₀ fun _ => []
  | tail {m m' : Sys σ ε L T α P} {log : P → List A} {p : P} {l : List A}
    (h : Logged trace Start ok m₀ m log) (hstep : Step Start ok p m m')
    (hl : trace m'.shared = l ++ trace m.shared) :
    Logged trace Start ok m₀ m' (Function.update log p (l ++ log p))

theorem Logged.reachable {trace : σ → List A} {Start : σ → P → Prog σ ε L T α → Prop}
    {ok : Sys σ ε L T α P → P → Prop} {m₀ m : Sys σ ε L T α P} {log : P → List A}
    (h : Logged trace Start ok m₀ m log) : Reachable Start ok m₀ m := by
  induction h with
  | refl => exact .refl
  | tail _ hstep _ ih => exact ih.tail ⟨_, hstep⟩

end Logged

variable (σ L P A B) in
/-- A trace in the state, an automaton that follows what one process adds to it, and what may be
assumed of the state when a process goes on. -/
structure Observer where
  trace : σ → List A
  trace_setOwner : ∀ s l o, trace (setOwner s l o) = trace s
  /-- the automaton, between two calls -/
  init : B
  /-- the next state of the automaton, if the action may come next -/
  next : B → A → Option B
  /-- what is known of the state -/
  Good : σ → Prop
  /-- what is known of a lock that a process asks for -/
  Ready : σ → L → Prop

namespace Observer

variable (O : Observer σ L P A B) {p : P}

/-- The state of the automaton after some actions, the latest first. -/
def advance (b : B) : List A → Option B
  | [] => some b
  | a :: l => (advance b l).bind fun c => O.next c a

theorem advance_append (b : B) (l l' : List A) :
    O.advance b (l ++ l') = (O.advance b l').bind fun c => O.advance c l := by
  induction l with
  | nil =>
    rw [List.nil_append]
    cases O.advance b l' <;> rfl
  | cons a l ih =>
    rw [List.cons_append, advance, ih, Option.bind_assoc]
    rfl

/-- On the way from `s` to `s'` the automaton goes from `b` to `c`. -/
def Adds (b c : B) (s s' : σ) : Prop :=
  ∃ l, O.trace s' = l ++ O.trace s ∧ O.advance b l = some c

variable {O}

theorem Adds.of_trace_eq {s s' : σ} (h : O.trace s' = O.trace s) (b : B) : O.Adds b b s s' :=
  ⟨[], h, rfl⟩

theorem Adds.trans {b c d : B} {s s' s'' : σ} (h : O.Adds b c s s') (h' : O.Adds c d s' s'') :
    O.Adds b d s s'' := by
  obtain ⟨l, hl, hc⟩ := h
  obtain ⟨l', hl', hd⟩ := h'
  refine ⟨l' ++ l, by rw [hl', hl, List.append_assoc], ?_⟩
  rw [advance_append, hc]
  exact hd

variable (O) in
/-- The automaton, in state `b`, follows a program of process `p` from the state `s`, and `Q` holds
at the end. -/
def Twp (p : P) : Prog σ ε L T α → (α → B → σ → Prop) → B → σ → Prop
  | .ret a, Q, b, s => Q a b s
  | .fail _, _, _, _ => True
  | .get k, Q, b, s => Twp p (k s) Q b s
  | .put s' k, Q, b, s => ∃ c, O.Adds b c s s' ∧ Twp p k Q c s'
  | .acquire l _ k, Q, b, _ => ∀ s, O.Good s → O.Ready s l → Twp p k Q b (setOwner s l (some p))
  | .release l k, Q, b, _ => ∀ s, O.Good s → Twp p k Q b (setOwner s l none)
  | .pause k, Q, b, _ => ∀ s, O.Good s → Twp p k Q b s

theorem twp_bind (prog : Prog σ ε L T α) (f : α → Prog σ ε L T β) (Q : β → B → σ → Prop) (b : B)
    (s : σ) : O.Twp p (prog >>= f) Q b s ↔ O.Twp p prog (fun a b s => O.Twp p (f a) Q b s) b s := by
  induction prog generalizing b s with
  | ret a | fail e => rfl
  | get k ih => exact ih s b s
  | put s' k ih => simp only [Prog.put_bind, Twp, ih]
  | acquire l t k ih => simp only [Prog.acquire_bind, Twp, ih]
  | release l k ih => simp only [Prog.release_bind, Twp, ih]
  | pause k ih => simp only [Prog.pause_bind, Twp, ih]

variable {prog : Prog σ ε L T α}

theorem Twp.mono {Q Q' : α → B → σ → Prop} {b : B} {s : σ} (h : O.Twp p prog Q b s)
    (hQ : ∀ a b s, Q a b s → Q' a b s) : O.Twp p prog Q' b s := by
  induction prog generalizing b s with
  | ret a => exact hQ a b s h
  | fail e => trivial
  | get k ih => exact ih s h
  | put s' k ih =>
    obtain ⟨c, hadds, hk⟩ := h
    exact ⟨c, hadds, ih hk⟩
  | acquire l t k ih => exact fun s' hgood hready => ih (h s' hgood hready)
  | release l k ih | pause k ih => exact fun s' hgood => ih (h s' hgood)

theorem twp_lift (c : StateT σ (Except ε) α) (Q : α → B → σ → Prop) (b : B) (s : σ) :
    O.Twp p (.lift c : Prog σ ε L T α) Q b s ↔
      Wp (fun _ => True) c (fun a s' => ∃ b', O.Adds b b' s s' ∧ Q a b' s') s := by
  simp only [Prog.lift, Twp, Wp]
  cases c s <;> rfl

/-! ### Programs that take the automaton from one state to another -/

variable (O) in
/-- The program takes the automaton from `b` to `c`. -/
def Takes (p : P) (b : B) (prog : Prog σ ε L T α) (c : B) : Prop :=
  ∀ s, O.Twp p prog (fun _ d _ => d = c) b s

variable (O) in
/-- Code without lock operations takes the automaton from `b` to `c`. -/
def Code (b : B) (m : StateT σ (Except ε) α) (c : B) : Prop :=
  ∀ s, Wp (fun _ => True) m (fun _ s' => O.Adds b c s s') s

namespace Code

variable {b c d : B}

theorem ret (a : α) : O.Code b (pure a : StateT σ (Except ε) α) b := fun _ => .of_trace_eq rfl b

theorem fail (e : ε) : O.Code b (throw e : StateT σ (Except ε) α) c := fun _ => trivial

theorem fail_bind (e : ε) (f : α → StateT σ (Except ε) β) : O.Code b (throw e >>= f) c :=
  fun _ => trivial

theorem read : O.Code b (get : StateT σ (Except ε) σ) b := fun _ => .of_trace_eq rfl b

theorem bind {m : StateT σ (Except ε) α} {f : α → StateT σ (Except ε) β} (h : O.Code b m c)
    (hf : ∀ a, O.Code c (f a) d) : O.Code b (m >>= f) d := by
  intro s
  rw [wp_bind]
  exact (h s).mono fun a s' hadds => (hf a s').mono fun _ _ hadds' => hadds.trans hadds'

theorem ite {t : Prop} [Decidable t] {m m' : StateT σ (Except ε) α} (h : t → O.Code b m c)
    (h' : ¬ t → O.Code b m' c) : O.Code b (if t then m else m') c := by
  split_ifs with ht
  · exact h ht
  · exact h' ht

theorem forM {xs : List β} {f : β → StateT σ (Except ε) PUnit} (h : ∀ x, O.Code b (f x) b) :
    O.Code b (xs.forM f) b := by
  induction xs with
  | nil => exact ret _
  | cons x xs ih => exact (h x).bind fun _ => ih

/-- Code that adds nothing. -/
theorem silent {f : σ → σ} (h : ∀ s, O.trace (f s) = O.trace s) :
    O.Code b (modify f : StateT σ (Except ε) PUnit) b := fun s => .of_trace_eq (h s) b

/-- Code that adds one action. -/
theorem action {f : σ → σ} {a : A} (h : ∀ s, O.trace (f s) = a :: O.trace s)
    (hnext : O.next b a = some c) : O.Code b (modify f : StateT σ (Except ε) PUnit) c :=
  fun s => ⟨[a], h s, hnext⟩

end Code

namespace Takes

variable {b c d : B}

theorem ret (a : α) : O.Takes p b (.ret a : Prog σ ε L T α) b := fun _ => rfl

theorem fail (e : ε) : O.Takes p b (.fail e : Prog σ ε L T α) c := fun _ => trivial

variable {prog : Prog σ ε L T α} {f : α → Prog σ ε L T β}

/-- A program after one that takes the automaton to a known state. -/
theorem bind_twp {Q : β → B → σ → Prop} (h : O.Takes p b prog c) (hf : ∀ a s, O.Twp p (f a) Q c s)
    (s : σ) : O.Twp p (prog >>= f) Q b s := by
  rw [twp_bind]
  refine (h s).mono fun a b' s' hb => ?_
  subst hb
  exact hf a s'

theorem bind (h : O.Takes p b prog c) (hf : ∀ a, O.Takes p c (f a) d) :
    O.Takes p b (prog >>= f) d := h.bind_twp hf

theorem lift {m : StateT σ (Except ε) α} (h : O.Code b m c) :
    O.Takes p b (.lift m : Prog σ ε L T α) c := by
  intro s
  rw [twp_lift]
  exact (h s).mono fun _ _ hadds => ⟨c, hadds, rfl⟩

theorem ite {t : Prop} [Decidable t] {prog' : Prog σ ε L T α} (h : t → O.Takes p b prog c)
    (h' : ¬ t → O.Takes p b prog' c) : O.Takes p b (if t then prog else prog') c := by
  split_ifs with ht
  · exact h ht
  · exact h' ht

theorem acq (l : L) (t : T) : O.Takes p b (.acq l t : Prog σ ε L T Unit) b :=
  fun _ _ _ _ => rfl

theorem rel (l : L) : O.Takes p b (.rel l : Prog σ ε L T Unit) b := fun _ _ _ => rfl

theorem yield : O.Takes p b (.yield : Prog σ ε L T Unit) b := fun _ _ _ => rfl

end Takes

/-! ### Soundness -/

/-- What running a program up to the next lock operation adds. A program that is at a lock operation
may go on from any state. -/
theorem settle_twp {Q : α → B → σ → Prop} {b : B} {s s' : σ} {r : α ⊕ Prog σ ε L T α}
    (h : O.Twp p prog Q b s) (hr : settle prog s = .ok (s', r)) :
    ∃ c, O.Adds b c s s' ∧ (∀ a, r = .inl a → Q a c s') ∧
      ∀ k, r = .inr k → ∀ t, O.Twp p k Q c t := by
  induction prog generalizing b s with
  | ret a =>
    obtain ⟨rfl, rfl⟩ := Prod.mk.inj (Except.ok.inj hr)
    exact ⟨b, .of_trace_eq rfl b, fun a' ha => Sum.inl.inj ha ▸ h, fun k hk => by simp at hk⟩
  | fail e => simp [settle] at hr
  | get k ih => exact ih s h hr
  | put t k ih =>
    obtain ⟨c, hadds, hk⟩ := h
    obtain ⟨d, hadds', hrest⟩ := ih hk hr
    exact ⟨d, hadds.trans hadds', hrest⟩
  | acquire l t k ih | release l k ih | pause k ih =>
    obtain ⟨rfl, rfl⟩ := Prod.mk.inj (Except.ok.inj hr)
    exact ⟨b, .of_trace_eq rfl b, fun a ha => by simp at ha, fun k' hk => Sum.inr.inj hk ▸
      fun _ => h⟩

variable (O) in
/-- The automaton, in state `b`, follows process `p` from here on. -/
def Follows (p : P) (b : B) : Option (Prog σ ε L T α) → Prop
  | none => b = O.init
  | some k => ∀ s, O.Twp p k (fun _ c _ => c = O.init) b s

variable [DecidableEq P]

/-- The automaton follows a process that runs up to the next lock operation. -/
theorem run_follows {m : Sys σ ε L T α P} {b : B} {s : σ}
    (h : O.Twp p prog (fun _ c _ => c = O.init) b s) (hb : O.Follows p b (m.thread p))
    (hs : O.trace s = O.trace m.shared) :
    ∃ c, O.Adds b c m.shared (m.run p prog s).shared ∧ O.Follows p c ((m.run p prog s).thread p) ∧
      ∀ q, q ≠ p → (m.run p prog s).thread q = m.thread q := by
  unfold Sys.run
  cases hr : settle prog s with
  | error e => exact ⟨b, .of_trace_eq rfl b, hb, fun _ _ => rfl⟩
  | ok x =>
    obtain ⟨s', r⟩ := x
    obtain ⟨c, hadds, hret, hrest⟩ := settle_twp h hr
    have hadds' : O.Adds b c m.shared s' := (Adds.of_trace_eq hs b).trans hadds
    cases r with
    | inl a =>
      refine ⟨c, hadds', ?_, fun q hq => Function.update_of_ne hq ..⟩
      simp only [Function.update_self]
      exact hret a rfl
    | inr k =>
      refine ⟨c, hadds', ?_, fun q hq => Function.update_of_ne hq ..⟩
      simp only [Function.update_self]
      exact hrest k rfl

section Sound

variable {Start : σ → P → Prog σ ε L T α → Prop} {ok : Sys σ ε L T α P → P → Prop}
  {m m' m₀ : Sys σ ε L T α P}

/-- The automaton follows a process through a step. -/
theorem step_follows (hstep : Step Start ok p m m') (hgood : O.Good m.shared)
    (hready : ∀ l t, request (m.thread p) = some (l, t) → O.Ready m.shared l)
    (hstart : ∀ s p prog, Start s p prog → O.Takes p O.init prog O.init) {b : B}
    (hb : O.Follows p b (m.thread p)) :
    ∃ c, O.Adds b c m.shared m'.shared ∧ O.Follows p c (m'.thread p) ∧
      ∀ q, q ≠ p → m'.thread q = m.thread q := by
  cases hstep with
  | start _ hidle hs =>
    have hb' := hb
    rw [hidle] at hb'
    obtain rfl : b = O.init := hb'
    exact run_follows (hstart _ _ _ hs _) hb rfl
  | resume _ _ hm =>
    have hb' := hb
    rw [Sys.resume] at hm
    split at hm
    · rename_i l t k hp
      rw [hp] at hb'
      split at hm
      · obtain rfl := Option.some.inj hm
        exact run_follows (hb' m.shared m.shared hgood (hready l t (by rw [hp]; rfl))) hb
          (O.trace_setOwner ..)
      · cases hm
    · rename_i l k hp
      rw [hp] at hb'
      obtain rfl := Option.some.inj hm
      exact run_follows (hb' m.shared m.shared hgood) hb (O.trace_setOwner ..)
    · rename_i k hp
      rw [hp] at hb'
      obtain rfl := Option.some.inj hm
      exact run_follows (hb' m.shared m.shared hgood) hb rfl
    · cases hm

/-- The automaton follows every process in every run, and is in its initial state when the process
is between two calls. -/
theorem sound (hrest : ∀ p, m₀.thread p = none)
    (hgood : ∀ m, Reachable Start ok m₀ m → O.Good m.shared ∧
      ∀ p l t, request (m.thread p) = some (l, t) → O.Ready m.shared l)
    (hstart : ∀ s p prog, Start s p prog → O.Takes p O.init prog O.init) {log : P → List A}
    (h : Logged O.trace Start ok m₀ m log) (p : P) :
    ∃ b, O.advance O.init (log p) = some b ∧ O.Follows p b (m.thread p) := by
  induction h generalizing p with
  | refl => exact ⟨O.init, rfl, by rw [hrest p]; rfl⟩
  | @tail m m' log q l h hstep hl ih =>
    obtain ⟨hg, hready⟩ := hgood m h.reachable
    obtain ⟨b, hadv, hb⟩ := ih q
    obtain ⟨c, ⟨l', hl', hc⟩, hfollows, hother⟩ := step_follows hstep hg (hready q) hstart hb
    obtain rfl : l = l' := List.append_cancel_right (hl.symm.trans hl')
    by_cases hp : p = q
    · subst hp
      refine ⟨c, ?_, hfollows⟩
      rw [Function.update_self, advance_append, hadv]
      exact hc
    · rw [Function.update_of_ne hp, hother p hp]
      exact ih p

end Sound

end Observer

end Interleave
