import Dave.Lib.Prog

/-!
# Related computations

Two computations with states of different types do the same if they lead from related states to
related states, with related results, and stop with the same errors. This is kept by the ways in
which computations are put together, so that code that is written for any kind of state does the
same for related operations.
-/

variable {σ τ ε α β γ δ : Type} {R : σ → τ → Prop} {V : α → β → Prop} {W : γ → δ → Prop}

/-- Two outcomes are the same, up to related results and states. -/
def Same (R : σ → τ → Prop) (V : α → β → Prop) : Except ε (α × σ) → Except ε (β × τ) → Prop
  | .ok (a, s), .ok (b, t) => V a b ∧ R s t
  | .error e, .error e' => e = e'
  | _, _ => False

/-- Two computations do the same in related states. -/
def Related (R : σ → τ → Prop) (V : α → β → Prop) (m : StateT σ (Except ε) α)
    (m' : StateT τ (Except ε) β) : Prop :=
  ∀ s t, R s t → Same R V (m s) (m' t)

namespace Related

theorem pure {a : α} {b : β} (h : V a b) :
    Related R V (Pure.pure a : StateT σ (Except ε) α) (Pure.pure b : StateT τ (Except ε) β) :=
  fun _ _ hR => ⟨h, hR⟩

theorem throw (e : ε) : Related R V (MonadExcept.throw e : StateT σ (Except ε) α)
    (MonadExcept.throw e : StateT τ (Except ε) β) :=
  fun _ _ _ => rfl

variable {m : StateT σ (Except ε) α} {m' : StateT τ (Except ε) β}

/-- More may be said about the results of the first computation. -/
theorem imp {V' : α → β → Prop} (h : Related R V m m')
    (hV : ∀ s s' a b, m s = .ok (a, s') → V a b → V' a b) : Related R V' m m' := by
  intro s t hR
  have hm := h s t hR
  cases hs : m s with
  | error e => cases ht : m' t <;> rwa [hs, ht] at hm
  | ok r =>
    cases ht : m' t with
    | error e' => rwa [hs, ht] at hm
    | ok r' =>
      rw [hs, ht] at hm
      exact ⟨hV s r.2 r.1 r'.1 hs hm.1, hm.2⟩

theorem bind {k : α → StateT σ (Except ε) γ} {k' : β → StateT τ (Except ε) δ} (h : Related R V m m')
    (hk : ∀ a b, V a b → Related R W (k a) (k' b)) : Related R W (m >>= k) (m' >>= k') := by
  intro s t hR
  have hm := h s t hR
  simp only [Bind.bind, StateT.bind, Except.bind]
  cases hs : m s with
  | error e =>
    cases ht : m' t with
    | error e' => rwa [hs, ht] at hm
    | ok r => rw [hs, ht] at hm; exact hm.elim
  | ok r =>
    cases ht : m' t with
    | error e' => rw [hs, ht] at hm; exact hm.elim
    | ok r' =>
      rw [hs, ht] at hm
      exact hk r.1 r'.1 hm.1 r.2 r'.2 hm.2

theorem ite {c c' : Prop} [Decidable c] [Decidable c'] (hc : c ↔ c') {k : StateT σ (Except ε) α}
    {k' : StateT τ (Except ε) β} (hm : Related R V m m') (hk : Related R V k k') :
    Related R V (if c then m else k) (if c' then m' else k') := by
  by_cases h : c
  · rw [if_pos h, if_pos (hc.mp h)]
    exact hm
  · rw [if_neg h, if_neg fun h' => h (hc.mpr h')]
    exact hk

end Related
