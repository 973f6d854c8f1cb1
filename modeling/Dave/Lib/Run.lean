import Mathlib.Data.List.Induction

/-!
# Runs of a machine

A machine is given by a partial step function on states and events. A run is a sequence of events
that the machine can make one after the other; `ok` restricts the events that a run may make in a
state.
-/

namespace Dave

variable {σ ε : Type*}

/-- The runs from `s₀` whose events all meet `ok` in the state before them. -/
inductive Run (step : σ → ε → Option σ) (ok : σ → ε → Prop) (s₀ : σ) : List ε → σ → Prop where
  | nil : Run step ok s₀ [] s₀
  | snoc {es : List ε} {s s' : σ} (e : ε) (h : Run step ok s₀ es s) (hok : ok s e)
      (hs : step s e = some s') : Run step ok s₀ (es ++ [e]) s'

/-- The step function that stops at events that do not meet `ok`. -/
def guarded (step : σ → ε → Option σ) (ok : σ → ε → Prop) [∀ s e, Decidable (ok s e)] (s : σ)
    (e : ε) : Option σ := if ok s e then step s e else none

namespace Run

variable {step : σ → ε → Option σ} {ok ok' : σ → ε → Prop} {s₀ s s' : σ} {es es' : List ε}

theorem mono (h : Run step ok s₀ es s) (hok : ∀ s e, ok s e → ok' s e) : Run step ok' s₀ es s := by
  induction h with
  | nil => exact .nil
  | snoc e _ hoke hs ih => exact .snoc e ih (hok _ _ hoke) hs

/-- **Invariant rule.** -/
theorem invariant {I : σ → Prop} (h : Run step ok s₀ es s) (h₀ : I s₀)
    (hstep : ∀ {s e s'}, I s → ok s e → step s e = some s' → I s') : I s := by
  induction h with
  | nil => exact h₀
  | snoc e _ hok hs ih => exact hstep ih hok hs

theorem snoc_iff {e : ε} : Run step ok s₀ (es ++ [e]) s' ↔
    ∃ s, Run step ok s₀ es s ∧ ok s e ∧ step s e = some s' := by
  constructor
  · generalize hl : es ++ [e] = l
    rintro (_ | ⟨e, h, hok, hs⟩)
    · simp at hl
    · obtain ⟨rfl, he⟩ := List.append_inj' hl rfl
      cases he
      exact ⟨_, h, hok, hs⟩
  · rintro ⟨s, h, hok, hs⟩
    exact .snoc e h hok hs

theorem eq_of_nil (h : Run step ok s₀ [] s) : s = s₀ := by
  generalize hl : ([] : List ε) = l at h
  cases h with
  | nil => rfl
  | snoc e _ _ _ => simp at hl

/-- Events lead to one state only. -/
theorem unique (h : Run step ok s₀ es s) (h' : Run step ok' s₀ es s') : s = s' := by
  induction es using List.reverseRecOn generalizing s s' with
  | nil => rw [h.eq_of_nil, h'.eq_of_nil]
  | append_singleton es e ih =>
    obtain ⟨_, h₁, -, hs⟩ := snoc_iff.mp h
    obtain ⟨_, h₂, -, hs'⟩ := snoc_iff.mp h'
    rw [ih h₁ h₂, hs'] at hs
    exact (Option.some.inj hs).symm

/-- The run that the execution of the events makes. -/
theorem of_foldlM [∀ s e, Decidable (ok s e)] (h : es.foldlM (guarded step ok) s₀ = some s) :
    Run step ok s₀ es s := by
  induction es using List.reverseRecOn generalizing s with
  | nil =>
    simp only [List.foldlM_nil, Option.pure_def, Option.some.injEq] at h
    exact h ▸ .nil
  | append_singleton es e ih =>
    rw [List.foldlM_append] at h
    obtain ⟨s₁, h₁, h₂⟩ := Option.bind_eq_some_iff.mp h
    simp only [List.foldlM_cons, List.foldlM_nil, Option.pure_def, Option.bind_eq_bind,
      Option.bind_fun_some, guarded, Option.ite_none_right_eq_some] at h₂
    exact .snoc e (ih h₁) h₂.1 h₂.2

end Run

/-- The restriction that allows every event. -/
def anyEvent (_ : σ) (_ : ε) : Prop := True

instance (s : σ) (e : ε) : Decidable (anyEvent s e) := inferInstanceAs (Decidable True)

end Dave
