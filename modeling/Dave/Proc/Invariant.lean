import Dave.Proc.Machine
import Mathlib.Algebra.Group.Nat.Defs

/-!
# Invariants of the process table

What holds in every state of every run of the machine, whatever the CPUs do: a process is
`RUNNING` exactly when one CPU runs it, pids are distinct, every process has a parent that can
still wait for it, and nobody sleeps in `wait` next to a child that has exited.

The invariant has four parts that are kept separately: `OnCpus` relates the table to the CPUs,
`Family` to the positions of the processes in `fork`, `Waits` to `wait`, and `Pids` holds the
identifiers and the history.
-/

namespace Dave.Proc

open Function

variable {C : Type} [DecidableEq C]

/-! ### What a step can do -/

/-- The steps of the machine, with what is known of the state before each. -/
inductive Step (m : Machine C) : Event C → Machine C → Prop where
  | dispatch (c : C) (p : Slot) (hc : m.cpu c = none) (hp : (m.table p).state = .runnable) :
      Step m (.schedule c) (dispatch m c p)
  | idle (c : C) : Step m (.schedule c) { m with next := update m.next c 0 }
  | yield (c : C) (p : Slot) (hc : m.cpu c = some p) : Step m (.yield c) (yield m c p)
  | sleep (c : C) (p : Slot) (chan : Chan) (hc : m.cpu c = some p) (hpos : m.pos p = .user) :
      Step m (.sleep c chan) (sleep m c p chan)
  | wakeup (chan : Chan) : Step m (.wakeup chan) { m with table := wakeup1 (some chan) m.table }
  | kill (c : C) (p : Slot) (pid : Pid) (hc : m.cpu c = some p) :
      Step m (.kill c pid) { m with table := (kill m.table pid).2 }
  | fork (c : C) (p : Slot) (hc : m.cpu c = some p) (hpos : m.pos p = .user) :
      Step m (.fork c) (allocproc m p)
  | kstack (c : C) (p np : Slot) (hc : m.cpu c = some p) (hpos : m.pos p = .allocated np) :
      Step m (.kstack c true) { m with pos := update m.pos p (.stacked np) }
  | kstackFail (c : C) (p np : Slot) (hc : m.cpu c = some p) (hpos : m.pos p = .allocated np) :
      Step m (.kstack c false) (forkFail m p np)
  | copyuvm (c : C) (p np : Slot) (hc : m.cpu c = some p) (hpos : m.pos p = .stacked np) :
      Step m (.copyuvm c true) (forkCopy m p np)
  | copyuvmFail (c : C) (p np : Slot) (hc : m.cpu c = some p) (hpos : m.pos p = .stacked np) :
      Step m (.copyuvm c false) (forkFail m p np)
  | forkDone (c : C) (p np : Slot) (hc : m.cpu c = some p) (hpos : m.pos p = .copied np) :
      Step m (.forkDone c) (forkDone m p np)
  | exit (c : C) (p : Slot) (hc : m.cpu c = some p) (hpos : m.pos p = .user)
      (hp : p ≠ initproc) : Step m (.exit c) (exit m c p)
  | wait (c : C) (p : Slot) (hc : m.cpu c = some p) (hpos : m.pos p = .user) :
      Step m (.wait c) (wait m c p)

theorem step_inv {m m' : Machine C} {e : Event C} (h : step m e = some m') : Step m e m' := by
  cases e with
  | schedule c =>
    simp only [step] at h
    split_ifs at h with hc
    cases h
    unfold schedule
    split
    · next p hfind =>
      have hp := List.find?_some hfind
      simp only [decide_eq_true_eq] at hp
      exact .dispatch c p hc hp.2
    · exact .idle c
  | yield c =>
    simp only [step] at h
    split at h <;> cases h
    exact .yield c _ ‹_›
  | sleep c chan =>
    simp only [step] at h
    split at h <;> [split_ifs at h with hpos; skip] <;> cases h
    exact .sleep c _ chan ‹_› hpos
  | wakeup chan =>
    cases h
    exact .wakeup chan
  | kill c pid =>
    simp only [step] at h
    split at h <;> [split_ifs at h with hpos; skip] <;> cases h
    exact .kill c _ pid ‹_›
  | fork c =>
    simp only [step] at h
    split at h <;> [split_ifs at h with hpos; skip] <;> cases h
    exact .fork c _ ‹_› hpos
  | kstack c ok =>
    simp only [step] at h
    split at h <;> [split at h; skip] <;> cases h
    cases ok
    · exact .kstackFail c _ _ ‹_› ‹_›
    · exact .kstack c _ _ ‹_› ‹_›
  | copyuvm c ok =>
    simp only [step] at h
    split at h <;> [split at h; skip] <;> cases h
    cases ok
    · exact .copyuvmFail c _ _ ‹_› ‹_›
    · exact .copyuvm c _ _ ‹_› ‹_›
  | forkDone c =>
    simp only [step] at h
    split at h <;> [split at h; skip] <;> cases h
    exact .forkDone c _ _ ‹_› ‹_›
  | exit c =>
    simp only [step] at h
    split at h <;> [split_ifs at h with hpos; skip] <;> cases h
    exact .exit c _ ‹_› hpos.1 hpos.2
  | wait c =>
    simp only [step] at h
    split at h <;> [split_ifs at h with hpos; skip] <;> cases h
    exact .wait c _ ‹_› hpos

/-! ### Processes on CPUs -/

/-- A process is `RUNNING` exactly when one CPU runs it. -/
structure OnCpus (t : Table) (cpu : C → Option Slot) : Prop where
  running : ∀ {c p}, cpu c = some p → (t p).state = .running
  exists_cpu : ∀ {p}, (t p).state = .running → ∃ c, cpu c = some p
  unique : ∀ {c c' p}, cpu c = some p → cpu c' = some p → c = c'

namespace OnCpus

variable {t t' : Table} {cpu : C → Option Slot} {c : C} {p : Slot}

omit [DecidableEq C] in
theorem congr (h : OnCpus t cpu)
    (hst : ∀ s, (t' s).state = .running ↔ (t s).state = .running) : OnCpus t' cpu where
  running hc := (hst _).mpr (h.running hc)
  exists_cpu hp := h.exists_cpu ((hst _).mp hp)
  unique := h.unique

theorem leave (h : OnCpus t cpu) (hc : cpu c = some p) (hp : (t' p).state ≠ .running)
    (hst : ∀ s, s ≠ p → ((t' s).state = .running ↔ (t s).state = .running)) :
    OnCpus t' (update cpu c none) := by
  have hne {c' : C} {q : Slot} (hq : update cpu c none c' = some q) : c' ≠ c ∧ cpu c' = some q := by
    by_cases hcc : c' = c
    · simp [hcc] at hq
    · exact ⟨hcc, by simpa [hcc] using hq⟩
  refine ⟨fun {c' q} hq => ?_, fun {q} hq => ?_, fun {c₁ c₂ q} h₁ h₂ => ?_⟩
  · obtain ⟨hcc, hq⟩ := hne hq
    have hqp : q ≠ p := fun hqp => hcc (h.unique hq (hqp ▸ hc))
    exact (hst q hqp).mpr (h.running hq)
  · have hqp : q ≠ p := fun hqp => hp (hqp ▸ hq)
    obtain ⟨c', hc'⟩ := h.exists_cpu ((hst q hqp).mp hq)
    have hcc : c' ≠ c := fun hcc => hqp (Option.some.inj (hc'.symm.trans (hcc ▸ hc)))
    exact ⟨c', by rwa [update_of_ne hcc]⟩
  · exact h.unique (hne h₁).2 (hne h₂).2

theorem enter (h : OnCpus t cpu) (hc : cpu c = none) (hp : (t p).state ≠ .running)
    (hp' : (t' p).state = .running)
    (hst : ∀ s, s ≠ p → ((t' s).state = .running ↔ (t s).state = .running)) :
    OnCpus t' (update cpu c (some p)) := by
  have hcases {c' : C} {q : Slot} (hq : update cpu c (some p) c' = some q) :
      c' = c ∧ q = p ∨ q ≠ p ∧ cpu c' = some q := by
    by_cases hcc : c' = c
    · subst hcc
      simp only [update_self, Option.some.injEq] at hq
      exact .inl ⟨rfl, hq.symm⟩
    · rw [update_of_ne hcc] at hq
      exact .inr ⟨fun hqp => hp (hqp ▸ h.running hq), hq⟩
  refine ⟨fun {c' q} hq => ?_, fun {q} hq => ?_, fun {c₁ c₂ q} h₁ h₂ => ?_⟩
  · rcases hcases hq with ⟨-, rfl⟩ | ⟨hqp, hq⟩
    · exact hp'
    · exact (hst q hqp).mpr (h.running hq)
  · by_cases hqp : q = p
    · exact ⟨c, by simp [hqp]⟩
    · obtain ⟨c', hc'⟩ := h.exists_cpu ((hst q hqp).mp hq)
      have hcc : c' ≠ c := by
        rintro rfl
        simp [hc] at hc'
      exact ⟨c', by rwa [update_of_ne hcc]⟩
  · rcases hcases h₁ with ⟨rfl, rfl⟩ | ⟨hqp, hq₁⟩
    · rcases hcases h₂ with ⟨rfl, -⟩ | ⟨hqp, -⟩
      · rfl
      · exact absurd rfl hqp
    · rcases hcases h₂ with ⟨-, rfl⟩ | ⟨-, hq₂⟩
      · exact absurd rfl hqp
      · exact h.unique hq₁ hq₂

end OnCpus

/-! ### Parents and children -/

/-- Every process that has started, apart from `initproc`, has a parent that has not exited; a
process in `fork` owns the slot that it is filling. -/
structure Family (t : Table) (pos : Slot → Pos) : Prop where
  init : (t initproc).state.live = true
  init_parent : (t initproc).parent = none
  irrefl : ∀ p, (t p).parent ≠ some p
  parent : ∀ {p}, p ≠ initproc → (t p).state.live = true ∨ (t p).state = .zombie →
    ∃ q, (t p).parent = some q ∧ (t q).state.live = true
  newborn : ∀ {p np}, (pos p).newborn = some np →
    (t np).state = .embryo ∧ ((t p).state = .running ∨ (t p).state = .runnable)
  newborn_inj : ∀ {p p' np}, (pos p).newborn = some np → (pos p').newborn = some np → p = p'
  copied : ∀ {p np}, pos p = .copied np → (t np).parent = some p

namespace Family

variable {t t' : Table} {pos pos' : Slot → Pos} {p np : Slot}

theorem congr (h : Family t pos) (hparent : ∀ s, (t' s).parent = (t s).parent)
    (hlive : ∀ s, (t' s).state.live = (t s).state.live)
    (hembryo : ∀ s, (t s).state = .embryo → (t' s).state = .embryo)
    (hzombie : ∀ s, (t' s).state = .zombie → (t s).state = .zombie)
    (hpos : ∀ s, (pos' s).newborn = none ∨
      pos' s = pos s ∧ ((t s).state = .running ∨ (t s).state = .runnable →
        (t' s).state = .running ∨ (t' s).state = .runnable)) : Family t' pos' := by
  have hback {s np : Slot} (hs : (pos' s).newborn = some np) : pos' s = pos s ∧
      ((t s).state = .running ∨ (t s).state = .runnable →
        (t' s).state = .running ∨ (t' s).state = .runnable) :=
    (hpos s).resolve_left (by simp [hs])
  refine ⟨by rw [hlive, h.init], by rw [hparent, h.init_parent], fun s => hparent s ▸ h.irrefl s,
    fun {s} hs hst => ?_, fun {s np} hs => ?_, fun {s s' np} hs hs' => ?_, fun {s np} hs => ?_⟩
  · obtain ⟨q, hq, hql⟩ := h.parent hs (hst.imp (hlive s ▸ ·) (hzombie s))
    exact ⟨q, by rw [hparent, hq], by rw [hlive, hql]⟩
  · obtain ⟨hp, hst⟩ := hback hs
    obtain ⟨hnp, hrun⟩ := h.newborn (hp ▸ hs)
    exact ⟨hembryo _ hnp, hst hrun⟩
  · exact h.newborn_inj ((hback hs).1 ▸ hs) ((hback hs').1 ▸ hs')
  · rw [hparent]
    exact h.copied ((hback (by rw [hs]; rfl)).1 ▸ hs)

theorem wakes (h : Family t pos) (hw : Wakes t t') : Family t' pos := by
  refine h.congr (fun s => (hw s).parent) (fun s => (hw s).live) (fun s hs => ?_) (fun s hs => ?_)
    fun s => .inr ⟨rfl, fun hs => ?_⟩
  · exact ((hw s).state_iff (by simp) (by simp)).mpr hs
  · exact ((hw s).state_iff (by simp) (by simp)).mp hs
  · rwa [(hw s).state_of_ne (by rcases hs with hs | hs <;> simp [hs])]

/-- One process that has started changes its state and channel, and leaves `fork` or may stay
there. -/
theorem setEntry (h : Family t pos) {e : Entry} {q : Pos} (hp : (t p).state.live = true)
    (he : e.state.live = true) (hparent : e.parent = (t p).parent)
    (hq : q.newborn = none ∨ q = pos p ∧ e.state ≠ .sleeping) :
    Family (update t p e) (update pos p q) := by
  have hlive {e : Entry} (he : e.state.live = true) : e.state ≠ .embryo ∧ e.state ≠ .zombie := by
    constructor <;> rintro hst <;> simp [hst, State.live] at he
  refine h.congr (fun s => ?_) (fun s => ?_) (fun s hs => ?_) (fun s hs => ?_) fun s => ?_ <;>
    by_cases hsp : s = p
  · rw [hsp, update_self, hparent]
  · rw [update_of_ne hsp]
  · rw [hsp, update_self, hp, he]
  · rw [update_of_ne hsp]
  · exact absurd (hsp ▸ hs) (hlive hp).1
  · rwa [update_of_ne hsp]
  · rw [hsp, update_self] at hs
    exact absurd hs (hlive he).2
  · rwa [update_of_ne hsp] at hs
  · subst hsp
    rw [update_self, update_self]
    refine hq.imp_right fun hq => ⟨hq.1, fun _ => ?_⟩
    revert he
    cases hst : e.state <;> simp [State.live, hst] at hq ⊢
  · rw [update_of_ne hsp, update_of_ne hsp]
    exact .inr ⟨rfl, id⟩

theorem ne_of_live {s q : Slot} (hq : (t q).state.live = true) (hs : (t s).state.live = false) :
    q ≠ s := by
  rintro rfl
  simp [hq] at hs

variable (h : Family t pos)

include h

theorem allocproc (pid : Pid) (hnp : (t np).state = .unused) (hp : (t p).state = .running) :
    Family (update t np { t np with state := .embryo, pid := pid })
      (update pos p (.allocated np)) := by
  have hne {s : Slot} (hs : (t s).state ≠ .unused) : s ≠ np := fun hsp => hs (hsp ▸ hnp)
  have hold {s np' : Slot} (hsp : s ≠ p)
      (hs : (update pos p (.allocated np) s).newborn = some np') :
      (pos s).newborn = some np' := by
    rwa [update_of_ne hsp] at hs
  have hnew {s np' : Slot} (hs : (pos s).newborn = some np') : np' ≠ np :=
    hne (by simp [(h.newborn hs).1])
  refine ⟨?_, ?_, fun s => ?_, fun {s} hs hst => ?_, fun {s np'} hs => ?_,
    fun {s s' np'} hs hs' => ?_,
    fun {s np'} hs => ?_⟩
  · rw [update_of_ne (ne_of_live h.init (by simp [hnp, State.live]))]
    exact h.init
  · rw [update_of_ne (ne_of_live h.init (by simp [hnp, State.live]))]
    exact h.init_parent
  · by_cases hsn : s = np
    · subst hsn
      simpa using h.irrefl s
    · simpa [hsn] using h.irrefl s
  · have hsn : s ≠ np := by
      rintro rfl
      simp [State.live] at hst
    rw [update_of_ne hsn] at hst ⊢
    obtain ⟨q, hq, hql⟩ := h.parent hs hst
    exact ⟨q, hq, by rwa [update_of_ne (ne_of_live hql (by simp [hnp, State.live]))]⟩
  · by_cases hsp : s = p
    · subst hsp
      obtain rfl : np = np' := by simpa [Pos.newborn] using hs
      rw [update_self, update_of_ne (hne (by simp [hp]))]
      exact ⟨rfl, .inl hp⟩
    · obtain ⟨hemb, hrun⟩ := h.newborn (hold hsp hs)
      rw [update_of_ne (hnew (hold hsp hs)),
        update_of_ne (hne (by rcases hrun with hr | hr <;> simp [hr]))]
      exact ⟨hemb, hrun⟩
  · by_cases hsp : s = p <;> by_cases hsp' : s' = p
    · rw [hsp, hsp']
    · subst hsp
      obtain rfl : np = np' := by simpa [Pos.newborn] using hs
      exact absurd rfl (hnew (hold hsp' hs'))
    · subst hsp'
      obtain rfl : np = np' := by simpa [Pos.newborn] using hs'
      exact absurd rfl (hnew (hold hsp hs))
    · exact h.newborn_inj (hold hsp hs) (hold hsp' hs')
  · have hsp : s ≠ p := by
      rintro rfl
      simp at hs
    rw [update_of_ne hsp] at hs
    rw [update_of_ne (hnew (by rw [hs]; rfl))]
    exact h.copied hs

/-- Process `p` in `fork` goes on with its slot, or gives it up (`st = .unused`) or makes it
runnable. -/
theorem fork (hp : (pos p).newborn = some np) {e : Entry} {q : Pos}
    (hparent : e.parent = (t np).parent ∨ e.parent = some p)
    (hst : e.state = .embryo ∧ q.newborn = some np ∧ (q = .copied np → e.parent = some p) ∨
      q.newborn = none ∧ (e.state = .unused ∨ e.state = .runnable ∧ e.parent = some p)) :
    Family (update t np e) (update pos p q) := by
  obtain ⟨hnp, hrun⟩ := h.newborn hp
  have hplive : (t p).state.live = true := by rcases hrun with hr | hr <;> simp [hr, State.live]
  have hne {s : Slot} (hs : (t s).state ≠ .embryo) : s ≠ np := fun hsp => hs (hsp ▸ hnp)
  have hlive {s : Slot} (hs : (t s).state.live = true) : s ≠ np :=
    ne_of_live hs (by simp [hnp, State.live])
  have hold {s np' : Slot} (hsp : s ≠ p) (hs : (pos s).newborn = some np') : np' ≠ np := by
    rintro rfl
    exact hsp (h.newborn_inj hs hp)
  refine ⟨?_, ?_, fun s => ?_, fun {s} hs hsl => ?_, fun {s np'} hs => ?_,
    fun {s s' np'} hs hs' => ?_,
    fun {s np'} hs => ?_⟩
  · rw [update_of_ne (hlive h.init)]
    exact h.init
  · rw [update_of_ne (hlive h.init)]
    exact h.init_parent
  · by_cases hsn : s = np
    · subst hsn
      rw [update_self]
      rcases hparent with he | he
      · exact he ▸ h.irrefl s
      · exact fun hps => hlive hplive (Option.some.inj (he.symm.trans hps))
    · rw [update_of_ne hsn]
      exact h.irrefl s
  · by_cases hsn : s = np
    · subst hsn
      rw [update_self] at hsl ⊢
      have hep : e.parent = some p := by
        rcases hst with ⟨he, -⟩ | ⟨-, he | ⟨-, he⟩⟩
        · simp [he, State.live] at hsl
        · simp [he, State.live] at hsl
        · exact he
      exact ⟨p, hep, by rwa [update_of_ne (hlive hplive)]⟩
    · rw [update_of_ne hsn] at hsl ⊢
      obtain ⟨q, hq, hql⟩ := h.parent hs hsl
      exact ⟨q, hq, by rwa [update_of_ne (hlive hql)]⟩
  · by_cases hsp : s = p
    · subst hsp
      rw [update_self] at hs
      rw [update_of_ne (hlive hplive)]
      rcases hst with ⟨he, hq, -⟩ | ⟨hq, -⟩
      · obtain rfl : np = np' := Option.some.inj (hq.symm.trans hs)
        exact ⟨by rwa [update_self], hrun⟩
      · simp [hq] at hs
    · rw [update_of_ne hsp] at hs
      obtain ⟨hemb, hrun'⟩ := h.newborn hs
      rw [update_of_ne (hold hsp hs),
        update_of_ne (hne (by rcases hrun' with hr | hr <;> simp [hr]))]
      exact ⟨hemb, hrun'⟩
  · have hback {s np' : Slot} (hs : (update pos p q s).newborn = some np') :
        (pos s).newborn = some np' := by
      by_cases hsp : s = p
      · subst hsp
        rw [update_self] at hs
        rcases hst with ⟨-, hq, -⟩ | ⟨hq, -⟩
        · rwa [← hs, hq]
        · simp [hq] at hs
      · rwa [update_of_ne hsp] at hs
    exact h.newborn_inj (hback hs) (hback hs')
  · by_cases hsp : s = p
    · subst hsp
      rw [update_self] at hs
      rcases hst with ⟨-, hq, hcop⟩ | ⟨hq, -⟩
      · obtain rfl : np = np' := by simpa [hs, Pos.newborn] using hq.symm
        rw [update_self]
        exact hcop hs
      · simp [hs, Pos.newborn] at hq
    · rw [update_of_ne hsp] at hs
      rw [update_of_ne (hold hsp (by rw [hs]; rfl))]
      exact h.copied hs

theorem setPos {q : Pos} (hq : q.newborn = none) : Family t (update pos p q) := by
  refine h.congr (fun _ => rfl) (fun _ => rfl) (fun _ => id) (fun _ => id) fun s => ?_
  by_cases hsp : s = p
  · exact .inl (by rw [hsp, update_self, hq])
  · exact .inr ⟨by rw [update_of_ne hsp], id⟩

theorem reap {s : Slot} (hs : (t s).state = .zombie) : Family (update t s (t s).reap) pos := by
  have hne {x : Slot} (hx : (t x).state ≠ .zombie) : x ≠ s := fun hxs => hx (hxs ▸ hs)
  have hlive {x : Slot} (hx : (t x).state.live = true) : x ≠ s :=
    ne_of_live hx (by simp [hs, State.live])
  refine ⟨?_, ?_, fun x => ?_, fun {x} hx hxl => ?_, fun {x np} hx => ?_, h.newborn_inj,
    fun {x np} hx => ?_⟩
  · rw [update_of_ne (hlive h.init)]
    exact h.init
  · rw [update_of_ne (hlive h.init)]
    exact h.init_parent
  · by_cases hxs : x = s
    · simp [hxs, Entry.reap]
    · rw [update_of_ne hxs]
      exact h.irrefl x
  · have hxs : x ≠ s := by
      rintro rfl
      simp [Entry.reap, State.live] at hxl
    rw [update_of_ne hxs] at hxl ⊢
    obtain ⟨q, hq, hql⟩ := h.parent hx hxl
    exact ⟨q, hq, by rwa [update_of_ne (hlive hql)]⟩
  · obtain ⟨hemb, hrun⟩ := h.newborn hx
    rw [update_of_ne (hne (by simp [hemb])),
      update_of_ne (hne (by rcases hrun with hr | hr <;> simp [hr]))]
    exact ⟨hemb, hrun⟩
  · rw [update_of_ne (hne (by simp [(h.newborn (by rw [hx]; rfl)).1]))]
    exact h.copied hx

theorem exit (hp : (t p).state = .running) (hpi : p ≠ initproc)
    (hw : Wakes (fun s => reparent p (t s)) t') :
    Family (update t' p { t' p with state := .zombie }) (update pos p .user) := by
  have hlive (s : Slot) : (t' s).state.live = (t s).state.live := by
    rw [(hw s).live, reparent_state]
  -- afterwards the parent of a process is `initproc` if it was `p`, and else what it was
  have hparent (s : Slot) : (update t' p { t' p with state := .zombie } s).parent =
      if (t s).parent = some p then some initproc else (t s).parent := by
    rw [← reparent_parent, ← (hw s).parent]
    by_cases hsp : s = p
    · subst hsp
      simp
    · rw [update_of_ne hsp]
  have hother {s : Slot} (hsp : s ≠ p) :
      (update t' p { t' p with state := .zombie } s).state.live = (t s).state.live := by
    rw [update_of_ne hsp, hlive]
  have hback {s np : Slot} (hs : (update pos p .user s).newborn = some np) :
      s ≠ p ∧ (pos s).newborn = some np := by
    by_cases hsp : s = p
    · simp [hsp, Pos.newborn] at hs
    · exact ⟨hsp, by rwa [update_of_ne hsp] at hs⟩
  refine ⟨?_, ?_, fun s => ?_, fun {s} hs hsl => ?_, fun {s np} hs => ?_,
    fun {s s' np} hs hs' => ?_,
    fun {s np} hs => ?_⟩
  · rw [hother hpi.symm, h.init]
  · rw [hparent, h.init_parent]
    rfl
  · rw [hparent]
    split_ifs with hsp
    · rintro heq
      rw [← Option.some.inj heq, h.init_parent] at hsp
      cases hsp
    · exact h.irrefl s
  · have hst : (t s).state.live = true ∨ (t s).state = .zombie := by
      by_cases hsp : s = p
      · exact .inl (by simp [hsp, hp, State.live])
      · rw [hother hsp] at hsl
        rwa [update_of_ne hsp, (hw s).state_iff (by simp) (by simp), reparent_state] at hsl
    obtain ⟨q, hq, hql⟩ := h.parent hs hst
    rw [hparent, hq]
    by_cases hqp : q = p
    · exact ⟨initproc, by simp [hqp], by rw [hother hpi.symm, h.init]⟩
    · exact ⟨q, by simp [hqp], by rw [hother hqp, hql]⟩
  · obtain ⟨hsp, hs⟩ := hback hs
    obtain ⟨hemb, hrun⟩ := h.newborn hs
    have hnp : np ≠ p := by
      rintro rfl
      simp [hp] at hemb
    have hs' : (t' s).state = (t s).state := by
      rw [(hw s).state_of_ne (by rw [reparent_state]; rcases hrun with hr | hr <;> simp [hr]),
        reparent_state]
    rw [update_of_ne hnp, update_of_ne hsp, hs',
      (hw np).state_iff (by simp) (by simp), reparent_state]
    exact ⟨hemb, hrun⟩
  · exact h.newborn_inj (hback hs).2 (hback hs').2
  · have hsp : s ≠ p := by
      rintro rfl
      simp at hs
    rw [update_of_ne hsp] at hs
    rw [hparent, h.copied hs, if_neg (by simpa using hsp)]

end Family

/-! ### Sleepers in `wait` -/

/-- A process asleep in `wait` sleeps on its own slot, and none of its children has exited. -/
def Waits (t : Table) (pos : Slot → Pos) : Prop :=
  ∀ p, (t p).state = .sleeping → pos p = .inWait →
    (t p).chan = some (.proc p) ∧ ∀ s, (t s).parent = some p → (t s).state ≠ .zombie

namespace Waits

variable {t t' : Table} {pos pos' : Slot → Pos} {p : Slot}

theorem congr (h : Waits t pos) (hsleep : ∀ s, (t' s).state = .sleeping → pos' s = .inWait →
      (t s).state = .sleeping ∧ pos s = .inWait ∧ (t' s).chan = (t s).chan)
    (hzombie : ∀ s q, (t' s).parent = some q → (t' s).state = .zombie →
      (t s).parent = some q ∧ (t s).state = .zombie) : Waits t' pos' := by
  intro q hq hpos
  obtain ⟨hq, hpos, hchan⟩ := hsleep q hq hpos
  obtain ⟨hc, hkids⟩ := h q hq hpos
  refine ⟨hchan.trans hc, fun s hs hz => ?_⟩
  obtain ⟨hs, hz⟩ := hzombie s q hs hz
  exact hkids s hs hz

theorem wakes (h : Waits t pos) (hw : Wakes t t') : Waits t' pos :=
  h.congr (fun s hs hpos => ⟨(hw s).sleeping hs, hpos, (hw s).chan⟩) fun s _ hs hz =>
    ⟨(hw s).parent ▸ hs, ((hw s).state_iff (by simp) (by simp)).mp hz⟩

theorem setEntry (h : Waits t pos) {s : Slot} {e : Entry}
    (hpos : ∀ x, pos' x = .inWait → pos x = .inWait ∨ x = s)
    (hs : e.state = .sleeping → pos' s ≠ .inWait) (he : e.state ≠ .zombie) :
    Waits (update t s e) pos' := by
  refine h.congr (fun x hx hxp => ?_) fun x q hx hz => ?_ <;> by_cases hxs : x = s
  · subst hxs
    rw [update_self] at hx
    exact absurd hxp (hs hx)
  · rw [update_of_ne hxs] at hx ⊢
    exact ⟨hx, (hpos x hxp).resolve_right hxs, rfl⟩
  · subst hxs
    rw [update_self] at hz
    exact absurd hz he
  · rw [update_of_ne hxs] at hx hz
    exact ⟨hx, hz⟩

theorem sleep (h : Waits t pos) (hnone : zombieChild t p = none) (hp : (t p).state = .running) :
    Waits (update t p { t p with chan := some (.proc p), state := .sleeping })
      (update pos p .inWait) := by
  have hother {s : Slot} (hs : (update t p
      { t p with chan := some (.proc p), state := .sleeping } s).state = .zombie) : s ≠ p := by
    rintro rfl
    simp at hs
  intro q hq hpos
  by_cases hqp : q = p
  · subst hqp
    refine ⟨by simp, fun s hs hz => ?_⟩
    rw [update_of_ne (hother hz)] at hs hz
    exact not_zombie_of_zombieChild_eq_none hnone s hs hz
  · rw [update_of_ne hqp] at hq hpos
    obtain ⟨hc, hkids⟩ := h q hq hpos
    refine ⟨by rwa [update_of_ne hqp], fun s hs hz => ?_⟩
    rw [update_of_ne (hother hz)] at hs hz
    exact hkids s hs hz

theorem exit (h : Waits t pos) (hirrefl : (t p).parent ≠ some p) :
    Waits (update (exitTable p t) p { exitTable p t p with state := .zombie })
      (update pos p .user) := by
  have hw := wakes_exitTable p t
  have hchan (s : Slot) : (exitTable p t s).chan = (t s).chan := by rw [(hw s).chan, reparent_chan]
  intro q hq hpos
  have hqp : q ≠ p := by
    rintro rfl
    simp at hq
  rw [update_of_ne hqp] at hq hpos ⊢
  obtain ⟨hc, hkids⟩ := h q (reparent_state p _ ▸ (hw q).sleeping hq) hpos
  refine ⟨(hchan q).trans hc, fun s hs hz => ?_⟩
  have hparent : (reparent p (t s)).parent = some q := by
    refine (hw s).parent.symm.trans ?_
    by_cases hsp : s = p
    · subst hsp
      simpa only [update_self] using hs
    · simpa only [update_of_ne hsp] using hs
  rw [reparent_parent] at hparent
  by_cases hsp : s = p
  · -- the exiting process itself: its parent was woken up
    subst hsp
    rw [if_neg hirrefl] at hparent
    exact exitTable_woken hparent ⟨hq, (hchan q).trans hc⟩
  · rw [update_of_ne hsp, (hw s).state_iff (by simp) (by simp), reparent_state] at hz
    split_ifs at hparent with hchild
    · -- an adopted child that had exited before: `initproc` was woken up
      obtain rfl : initproc = q := Option.some.inj hparent
      exact exitTable_woken_init hchild hz ⟨hq, (hchan _).trans hc⟩
    · exact hkids s hparent hz

end Waits

/-! ### Identifiers -/

/-- The pids in the table are distinct, and distinct from those that `wait` has returned, each of
them once and to the parent. -/
structure Pids (m : Machine C) : Prop where
  nextpid : m.nextpid.toNat = m.created + 1
  le : ∀ {p}, (m.table p).state ≠ .unused → (m.table p).pid.toNat ≤ m.created
  inj : ∀ {p q}, (m.table p).state ≠ .unused → (m.table q).state ≠ .unused →
    (m.table p).pid = (m.table q).pid → p = q
  waited_le : ∀ w ∈ m.waited, w.pid.toNat ≤ m.created
  waited_gone : ∀ w ∈ m.waited, ∀ p, (m.table p).state ≠ .unused → (m.table p).pid ≠ w.pid
  waited_nodup : (m.waited.map Waited.pid).Nodup
  waited_parent : ∀ w ∈ m.waited, w.parent = some w.caller

namespace Pids

variable {m m' : Machine C}

omit [DecidableEq C] in
theorem congr (h : Pids m) (hnext : m'.nextpid = m.nextpid) (hcreated : m'.created = m.created)
    (hwaited : m'.waited = m.waited)
    (hpid : ∀ p, (m'.table p).state ≠ .unused →
      (m.table p).state ≠ .unused ∧ (m'.table p).pid = (m.table p).pid) : Pids m' where
  nextpid := by rw [hnext, hcreated, h.nextpid]
  le hp := by
    obtain ⟨hp, hpp⟩ := hpid _ hp
    rw [hpp, hcreated]
    exact h.le hp
  inj hp hq hpq := by
    obtain ⟨hp, hpp⟩ := hpid _ hp
    obtain ⟨hq, hqq⟩ := hpid _ hq
    exact h.inj hp hq (hpp ▸ hqq ▸ hpq)
  waited_le := by rw [hwaited, hcreated]; exact h.waited_le
  waited_gone w hw p hp := by
    obtain ⟨hp, hpp⟩ := hpid _ hp
    rw [hpp]
    exact h.waited_gone w (hwaited ▸ hw) p hp
  waited_nodup := by rw [hwaited]; exact h.waited_nodup
  waited_parent := by rw [hwaited]; exact h.waited_parent

omit [DecidableEq C] in
theorem wakes (h : Pids m) (hnext : m'.nextpid = m.nextpid) (hcreated : m'.created = m.created)
    (hwaited : m'.waited = m.waited) (hw : Wakes m.table m'.table) : Pids m' :=
  h.congr hnext hcreated hwaited fun p hp =>
    ⟨mt ((hw p).state_iff (by simp) (by simp)).mpr hp, (hw p).pid⟩

omit [DecidableEq C] in
theorem setEntry (h : Pids m) (hnext : m'.nextpid = m.nextpid) (hcreated : m'.created = m.created)
    (hwaited : m'.waited = m.waited) {s : Slot} {e : Entry}
    (htable : m'.table = update m.table s e) (hs : (m.table s).state ≠ .unused)
    (he : e.pid = (m.table s).pid) : Pids m' := by
  refine h.congr hnext hcreated hwaited fun p hp => ?_
  rw [htable] at hp ⊢
  by_cases hps : p = s
  · subst hps
    rw [update_self]
    exact ⟨hs, he⟩
  · rw [update_of_ne hps] at hp ⊢
    exact ⟨hp, rfl⟩

omit [DecidableEq C] in
theorem allocproc (h : Pids m) {p np : Slot} (hnp : freeSlot m.table = some np)
    (hlt : m.created + 1 < 2 ^ 31 - 1) : Pids (allocproc m p) := by
  have hnew {s : Slot} (hs : (m.table s).state ≠ .unused) : (m.table s).pid ≠ m.nextpid := by
    intro heq
    have := h.le hs
    rw [heq, h.nextpid] at this
    omega
  simp only [Proc.allocproc, hnp]
  refine ⟨?_, fun {s} hs => ?_, fun {s s'} hs hs' heq => ?_, fun w hw => ?_, fun w hw s hs => ?_,
    h.waited_nodup, h.waited_parent⟩
  · have hone : (1 : Pid).toNat = 1 := rfl
    simp only [BitVec.toNat_add, h.nextpid, hone]
    omega
  · by_cases hsn : s = np
    · simp [hsn, h.nextpid]
    · simp only [update_of_ne hsn] at hs ⊢
      exact (h.le hs).trans (Nat.le_succ _)
  · by_cases hsn : s = np <;> by_cases hsn' : s' = np
    · rw [hsn, hsn']
    · subst hsn
      simp only [update_self, update_of_ne hsn'] at hs' heq
      exact absurd heq.symm (hnew hs')
    · subst hsn'
      simp only [update_self, update_of_ne hsn] at hs heq
      exact absurd heq (hnew hs)
    · simp only [update_of_ne hsn, update_of_ne hsn'] at hs hs' heq
      exact h.inj hs hs' heq
  · exact (h.waited_le w hw).trans (Nat.le_succ _)
  · by_cases hsn : s = np
    · subst hsn
      simp only [update_self]
      intro heq
      have := h.waited_le w hw
      rw [← heq, h.nextpid] at this
      omega
    · simp only [update_of_ne hsn] at hs ⊢
      exact h.waited_gone w hw s hs

omit [DecidableEq C] in
theorem reap (h : Pids m) {p s : Slot} (hs : zombieChild m.table p = some s)
    (hnext : m'.nextpid = m.nextpid) (hcreated : m'.created = m.created)
    (htable : m'.table = update m.table s (m.table s).reap)
    (hwaited : m'.waited = m.waited ++ [⟨p, (m.table s).pid, (m.table s).parent⟩]) : Pids m' := by
  obtain ⟨hparent, hz⟩ := of_zombieChild hs
  have hsu : (m.table s).state ≠ .unused := by simp [hz]
  have hused {x : Slot} (hx : (m'.table x).state ≠ .unused) : x ≠ s ∧ m'.table x = m.table x := by
    rw [htable] at hx ⊢
    have hxs : x ≠ s := by
      rintro rfl
      simp [Entry.reap] at hx
    exact ⟨hxs, update_of_ne hxs _ _⟩
  refine ⟨by rw [hnext, hcreated, h.nextpid], fun {x} hx => ?_, fun {x y} hx hy heq => ?_,
    fun w hw => ?_, fun w hw x hx => ?_, ?_, fun w hw => ?_⟩
  · obtain ⟨-, hxt⟩ := hused hx
    rw [hxt] at hx ⊢
    exact hcreated ▸ h.le hx
  · obtain ⟨-, hxt⟩ := hused hx
    obtain ⟨-, hyt⟩ := hused hy
    rw [hxt] at hx heq
    rw [hyt] at hy heq
    exact h.inj hx hy heq
  · rw [hwaited] at hw
    rw [hcreated]
    rcases List.mem_append.mp hw with hw | hw
    · exact h.waited_le w hw
    · rw [List.mem_singleton.mp hw]
      exact h.le hsu
  · obtain ⟨hxs, hxt⟩ := hused hx
    rw [hxt] at hx ⊢
    rw [hwaited] at hw
    rcases List.mem_append.mp hw with hw | hw
    · exact h.waited_gone w hw x hx
    · rw [List.mem_singleton.mp hw]
      exact fun heq => hxs (h.inj hx hsu heq)
  · rw [hwaited, List.map_append, List.map_singleton, List.nodup_append]
    refine ⟨h.waited_nodup, List.nodup_singleton _, fun x hx y hy => ?_⟩
    obtain ⟨w, hw, rfl⟩ := List.mem_map.mp hx
    rw [List.mem_singleton.mp hy]
    exact (h.waited_gone w hw s hsu).symm
  · rw [hwaited] at hw
    rcases List.mem_append.mp hw with hw | hw
    · exact h.waited_parent w hw
    · rw [List.mem_singleton.mp hw]
      exact hparent

end Pids

/-! ### The invariant -/

/-- The table, the positions of the processes and the CPUs fit together. -/
structure Fits (t : Table) (pos : Slot → Pos) (cpu : C → Option Slot) : Prop where
  cpus : OnCpus t cpu
  family : Family t pos
  waits : Waits t pos

namespace Fits

variable {t t' : Table} {pos : Slot → Pos} {cpu : C → Option Slot} {c : C} {p np : Slot} {e : Entry}
  {q : Pos}

variable (h : Fits t pos cpu)

include h

omit [DecidableEq C] in
theorem live (hc : cpu c = some p) : (t p).state.live = true := by
  rw [h.cpus.running hc]
  rfl

omit [DecidableEq C] in
theorem wakes (hw : Wakes t t') : Fits t' pos cpu where
  cpus := h.cpus.congr fun s => (hw s).state_iff (by simp) (by simp)
  family := h.family.wakes hw
  waits := h.waits.wakes hw

theorem leave (hc : cpu c = some p)
    (he : e.state = .sleeping ∧ q.newborn = none ∨ e.state = .runnable ∧ q = pos p)
    (hparent : e.parent = (t p).parent) (hwaits : Waits (update t p e) (update pos p q)) :
    Fits (update t p e) (update pos p q) (update cpu c none) where
  cpus := by
    refine h.cpus.leave hc ?_ fun s hs => by rw [update_of_ne hs]
    rw [update_self]
    rcases he with ⟨he, -⟩ | ⟨he, -⟩ <;> simp [he]
  family := by
    refine h.family.setEntry (h.live hc) ?_ hparent ?_
    · rcases he with ⟨he, -⟩ | ⟨he, -⟩ <;> rw [he] <;> rfl
    · exact he.imp And.right fun he => ⟨he.2, by simp [he.1]⟩
  waits := hwaits

theorem yield (hc : cpu c = some p) :
    Fits (update t p { t p with state := .runnable }) pos (update cpu c none) := by
  have hwaits : Waits (update t p { t p with state := .runnable }) pos :=
    h.waits.setEntry (fun _ => .inl) (by simp) (by simp)
  have hleave := h.leave hc (e := { t p with state := .runnable }) (q := pos p)
    (.inr ⟨rfl, rfl⟩) rfl (by rwa [update_eq_self])
  rwa [update_eq_self] at hleave

theorem sleep (hc : cpu c = some p) (chan : Option Chan) :
    Fits (update t p { t p with chan := chan, state := .sleeping })
      (update pos p .inSleep) (update cpu c none) := by
  refine h.leave hc (.inl ⟨rfl, rfl⟩) rfl (h.waits.setEntry (fun x hx => ?_) (by simp) (by simp))
  by_cases hxp : x = p
  · exact .inr hxp
  · exact .inl (by rwa [update_of_ne hxp] at hx)

omit [DecidableEq C] in
theorem setUser (p : Slot) : Fits t (update pos p .user) cpu where
  cpus := h.cpus
  family := h.family.setPos rfl
  waits := by
    refine h.waits.congr (fun s hs hpos => ?_) fun s q hs hz => ⟨hs, hz⟩
    have hsp : s ≠ p := by
      rintro rfl
      simp at hpos
    rw [update_of_ne hsp] at hpos
    exact ⟨hs, hpos, rfl⟩

omit [DecidableEq C] in
theorem reap {s : Slot} (hz : (t s).state = .zombie) :
    Fits (update t s (t s).reap) pos cpu where
  cpus := by
    refine h.cpus.congr fun x => ?_
    by_cases hx : x = s
    · simp [hx, hz, Entry.reap]
    · rw [update_of_ne hx]
  family := h.family.reap hz
  waits := h.waits.setEntry (fun _ => .inl) (by simp [Entry.reap]) (by simp [Entry.reap])

theorem enter (hc : cpu c = none) (hp : (t p).state = .runnable) (chan : Option Chan) :
    Fits (update t p { t p with state := .running, chan := chan })
      pos (update cpu c (some p)) where
  cpus := h.cpus.enter hc (by simp [hp]) (by simp) fun s hs => by rw [update_of_ne hs]
  family := by
    have hupdate := h.family.setEntry (p := p) (e := { t p with state := .running, chan := chan })
      (q := pos p) (by rw [hp]; rfl) rfl rfl (.inr ⟨rfl, by simp⟩)
    rwa [update_eq_self] at hupdate
  waits := h.waits.setEntry (fun _ => .inl) (by simp) (by simp)

omit [DecidableEq C] in
theorem allocproc (hc : cpu c = some p) (hfree : (t np).state = .unused) (pid : Pid) :
    Fits (update t np { t np with state := .embryo, pid := pid })
      (update pos p (.allocated np)) cpu where
  cpus := by
    refine h.cpus.congr fun s => ?_
    by_cases hs : s = np
    · simp [hs, hfree]
    · rw [update_of_ne hs]
  family := h.family.allocproc pid hfree (h.cpus.running hc)
  waits := by
    refine h.waits.setEntry (fun x hx => ?_) (by simp) (by simp)
    have hxp : x ≠ p := by
      rintro rfl
      simp at hx
    exact .inl (by rwa [update_of_ne hxp] at hx)

omit [DecidableEq C] in
theorem fork (hpos : (pos p).newborn = some np)
    (hparent : e.parent = (t np).parent ∨ e.parent = some p)
    (hst : e.state = .embryo ∧ q.newborn = some np ∧ (q = .copied np → e.parent = some p) ∨
      q = .user ∧ (e.state = .unused ∨ e.state = .runnable ∧ e.parent = some p)) :
    Fits (update t np e) (update pos p q) cpu := by
  have hemb := (h.family.newborn hpos).1
  have hne : e.state ≠ .running ∧ e.state ≠ .sleeping ∧ e.state ≠ .zombie := by
    rcases hst with ⟨he, -⟩ | ⟨-, he | ⟨he, -⟩⟩ <;> simp [he]
  refine ⟨h.cpus.congr fun s => ?_, h.family.fork hpos hparent ?_,
    h.waits.setEntry (fun x hx => ?_) (fun hs => absurd hs hne.2.1) hne.2.2⟩
  · by_cases hs : s = np
    · simp [hs, hemb, hne.1]
    · rw [update_of_ne hs]
  · exact hst.imp_right fun hst => ⟨by rw [hst.1]; rfl, hst.2⟩
  · have hxp : x ≠ p := by
      rintro rfl
      rw [update_self] at hx
      rcases hst with ⟨-, hq, -⟩ | ⟨hq, -⟩ <;> simp [hx, Pos.newborn] at hq
    exact .inl (by rwa [update_of_ne hxp] at hx)

theorem exit (hc : cpu c = some p) (hp : p ≠ initproc) :
    Fits (update (exitTable p t) p { exitTable p t p with state := .zombie })
      (update pos p .user) (update cpu c none) := by
  have hw := wakes_exitTable p t
  refine ⟨h.cpus.leave hc (by simp) fun s hs => ?_,
    h.family.exit (h.cpus.running hc) hp hw, h.waits.exit (h.family.irrefl p)⟩
  rw [update_of_ne hs, (hw s).state_iff (by simp) (by simp), reparent_state]

end Fits

/-- The part of the invariant that does not speak of pids. -/
def Inv (m : Machine C) : Prop := Fits m.table m.pos m.cpu

variable {m m' : Machine C} {c : C} {p : Slot}

omit [DecidableEq C] in
theorem inv_boot : Inv (boot : Machine C) := by
  have hstate (s : Slot) : ((boot : Machine C).table s).state =
      if s = initproc then .runnable else .unused := by
    simp only [boot]
    split_ifs <;> rfl
  have hparent (s : Slot) : ((boot : Machine C).table s).parent = none := by
    simp only [boot]
    split_ifs <;> rfl
  refine ⟨⟨nofun, fun {p} hp => ?_, nofun⟩,
    ⟨?_, hparent _, fun p => by simp [hparent], fun {p} hp hst => ?_, nofun, nofun, nofun⟩,
    fun p hp => ?_⟩
  · rw [hstate] at hp
    split_ifs at hp
  · simp [hstate, State.live]
  · rw [hstate, if_neg hp] at hst
    simp [State.live] at hst
  · rw [hstate] at hp
    split_ifs at hp

theorem Inv.wait (h : Inv m) (hc : m.cpu c = some p) : Inv (wait m c p) := by
  unfold Proc.wait
  split
  · next s hs => exact (Fits.reap h (of_zombieChild hs).2).setUser p
  · next hnone =>
    split_ifs
    · exact Fits.setUser h p
    · exact Fits.leave h hc (.inl ⟨rfl, rfl⟩) rfl (h.waits.sleep hnone (h.cpus.running hc))

theorem Inv.dispatch (h : Inv m) (hc : m.cpu c = none) (hp : (m.table p).state = .runnable) :
    Inv (dispatch m c p) := by
  have hawake := Fits.enter h hc hp none
  unfold Proc.dispatch
  simp only [update_self, update_idem]
  split
  · exact hawake.setUser p
  · refine Inv.wait ?_ (update_self ..)
    exact hawake
  · exact Fits.enter h hc hp (m.table p).chan

theorem Inv.step {e : Event C} (h : Inv m) (hs : step m e = some m') : Inv m' := by
  cases step_inv hs with
  | dispatch c p hc hp => exact h.dispatch hc hp
  | idle c => exact h
  | yield c p hc => exact Fits.yield h hc
  | sleep c p chan hc hpos => exact Fits.sleep h hc (some chan)
  | wakeup chan => exact Fits.wakes h (wakes_wakeup1 _ _)
  | kill c p pid hc => exact Fits.wakes h (wakes_kill _ _)
  | fork c p hc hpos =>
    unfold Proc.allocproc
    split
    · next np hnp => exact Fits.allocproc h hc (state_of_freeSlot hnp) _
    · exact h
  | kstack c p np hc hpos =>
    have hnew : (m.pos p).newborn = some np := by rw [hpos]; rfl
    have hfork := Fits.fork h hnew (e := m.table np) (q := .stacked np) (.inl rfl)
      (.inl ⟨(h.family.newborn hnew).1, rfl, by simp⟩)
    rwa [update_eq_self] at hfork
  | kstackFail c p np hc hpos =>
    exact Fits.fork h (by rw [hpos]; rfl) (.inl rfl) (.inr ⟨rfl, .inl rfl⟩)
  | copyuvm c p np hc hpos =>
    have hnew : (m.pos p).newborn = some np := by rw [hpos]; rfl
    exact Fits.fork h hnew (.inr rfl) (.inl ⟨(h.family.newborn hnew).1, rfl, fun _ => rfl⟩)
  | copyuvmFail c p np hc hpos =>
    exact Fits.fork h (by rw [hpos]; rfl) (.inl rfl) (.inr ⟨rfl, .inl rfl⟩)
  | forkDone c p np hc hpos =>
    have hnew : (m.pos p).newborn = some np := by rw [hpos]; rfl
    exact (Fits.fork h hnew (e := { m.table np with state := .runnable }) (q := .user)
      (.inl rfl) (.inr ⟨rfl, .inr ⟨rfl, h.family.copied hpos⟩⟩)).setUser np
  | exit c p hc hpos hp => exact Fits.exit h hc hp
  | wait c p hc hpos => exact h.wait hc

theorem Inv.run {es : List (Event C)} (hr : Run boot es m) : Inv m :=
  hr.invariant inv_boot fun h _ hs => h.step hs

/-! ### Identifiers over runs -/

omit [DecidableEq C] in
theorem pids_boot : Pids (boot : Machine C) := by
  have hinit {s : Slot} (hs : ((boot : Machine C).table s).state ≠ .unused) : s = initproc := by
    by_contra hne
    simp [boot, hne] at hs
  refine ⟨rfl, fun {p} hp => ?_, fun {p q} hp hq _ => (hinit hp).trans (hinit hq).symm, nofun,
    nofun, List.nodup_nil, nofun⟩
  rw [hinit hp]
  exact Nat.le_refl 1

theorem Pids.wait (h : Pids m) (hp : (m.table p).state ≠ .unused) : Pids (wait m c p) := by
  unfold Proc.wait
  split
  · next s hs => exact h.reap hs rfl rfl rfl rfl
  · split_ifs
    · exact h.congr rfl rfl rfl fun q hq => ⟨hq, rfl⟩
    · exact h.setEntry rfl rfl rfl rfl hp rfl

theorem Pids.dispatch (h : Pids m) (hp : (m.table p).state = .runnable) :
    Pids (dispatch m c p) := by
  have hne : (m.table p).state ≠ .unused := by simp [hp]
  unfold Proc.dispatch
  simp only [update_self, update_idem]
  split
  · exact h.setEntry rfl rfl rfl rfl hne rfl
  · exact Pids.wait (h.setEntry rfl rfl rfl rfl hne rfl) (by simp)
  · exact h.setEntry rfl rfl rfl rfl hne rfl

theorem Pids.exit (h : Pids m) (hp : (m.table p).state ≠ .unused) : Pids (exit m c p) := by
  have hw := wakes_exitTable p m.table
  refine h.congr rfl rfl rfl fun s hs => ?_
  change (update (exitTable p m.table) p _ s).state ≠ .unused at hs
  change _ ∧ (update (exitTable p m.table) p _ s).pid = _
  have hpid : (exitTable p m.table s).pid = (m.table s).pid := by rw [(hw s).pid, reparent_pid]
  by_cases hsp : s = p
  · subst hsp
    simp only [update_self, hpid]
    exact ⟨hp, trivial⟩
  · rw [update_of_ne hsp] at hs ⊢
    rw [Ne, (hw s).state_iff (by simp) (by simp), reparent_state] at hs
    exact ⟨hs, hpid⟩

theorem created_wait (m : Machine C) (c : C) (p : Slot) : (wait m c p).created = m.created := by
  unfold wait
  split
  · rfl
  · split_ifs <;> rfl

theorem created_dispatch (m : Machine C) (c : C) (p : Slot) :
    (dispatch m c p).created = m.created := by
  unfold dispatch
  simp only
  split
  · rfl
  · rw [created_wait]
  · rfl

theorem created_le {e : Event C} (hs : step m e = some m') : m.created ≤ m'.created := by
  cases step_inv hs with
  | dispatch => rw [created_dispatch]
  | wait => rw [created_wait]
  | fork =>
    unfold allocproc
    split
    · exact Nat.le_succ _
    · exact Nat.le_refl _
  | _ => exact Nat.le_refl _

theorem Pids.step {e : Event C} (h : Pids m) (hi : Inv m) (hs : step m e = some m')
    (hlt : m'.created < 2 ^ 31 - 1) : Pids m' := by
  have hrun {c : C} {p : Slot} (hc : m.cpu c = some p) : (m.table p).state ≠ .unused := by
    simp [hi.cpus.running hc]
  have hnew {p np : Slot} (hp : (m.pos p).newborn = some np) : (m.table np).state ≠ .unused := by
    simp [(hi.family.newborn hp).1]
  cases step_inv hs with
  | dispatch c p hc hp => exact h.dispatch hp
  | idle c => exact h.congr rfl rfl rfl fun q hq => ⟨hq, rfl⟩
  | yield c p hc | sleep c p chan hc hpos => exact h.setEntry rfl rfl rfl rfl (hrun hc) rfl
  | wakeup chan => exact h.wakes rfl rfl rfl (wakes_wakeup1 _ _)
  | kill c p pid hc => exact h.wakes rfl rfl rfl (wakes_kill _ _)
  | fork c p hc hpos =>
    cases hnp : freeSlot m.table with
    | some np =>
      refine h.allocproc hnp ?_
      simpa only [Proc.allocproc, hnp] using hlt
    | none => simpa only [Proc.allocproc, hnp] using h
  | kstack c p np hc hpos => exact h.congr rfl rfl rfl fun q hq => ⟨hq, rfl⟩
  | kstackFail c p np hc hpos =>
    exact h.setEntry rfl rfl rfl rfl (hnew (by rw [hpos]; rfl)) rfl
  | copyuvm c p np hc hpos => exact h.setEntry rfl rfl rfl rfl (hnew (by rw [hpos]; rfl)) rfl
  | copyuvmFail c p np hc hpos =>
    exact h.setEntry rfl rfl rfl rfl (hnew (by rw [hpos]; rfl)) rfl
  | forkDone c p np hc hpos => exact h.setEntry rfl rfl rfl rfl (hnew (by rw [hpos]; rfl)) rfl
  | exit c p hc hpos hp => exact h.exit (hrun hc)
  | wait c p hc hpos => exact h.wait (hrun hc)

theorem Pids.run {es : List (Event C)} (hr : Run boot es m) (hlt : m.created < 2 ^ 31 - 1) :
    Pids m := by
  induction hr with
  | nil => exact pids_boot
  | snoc e hr _ hs ih =>
    exact (ih (Nat.lt_of_le_of_lt (created_le hs) hlt)).step (Inv.run hr) hs hlt

/-! ### The main result -/

/-- **The process table over whole runs.** Let any number of CPUs run any interleaving of `fork`,
`exit`, `wait`, `kill`, `sleep`, `wakeup`, `yield` and scheduler steps, with fewer than `2^31 - 1`
processes created. In every state reached:

* the pids of slots in use are distinct;
* a slot is `RUNNING` if and only if exactly one CPU's `proc` names it;
* every process that has started, apart from `initproc`, has a parent that is neither `UNUSED` nor
  `EMBRYO` nor `ZOMBIE`;
* `wait` has returned each pid that `fork` returned at most once, and only to the parent that the
  process had at that time;
* no process asleep in `wait` has a child that has exited. -/
theorem process_table {es : List (Event C)} (hr : Run boot es m) (hlt : m.created < 2 ^ 31 - 1) :
    (∀ p q, (m.table p).state ≠ .unused → (m.table q).state ≠ .unused →
      (m.table p).pid = (m.table q).pid → p = q) ∧
    (∀ p, (m.table p).state = .running ↔ ∃! c, m.cpu c = some p) ∧
    (∀ p, p ≠ initproc → (m.table p).state ∈ [.sleeping, .runnable, .running, .zombie] →
      ∃ q, (m.table p).parent = some q ∧ (m.table q).state ∉ [.unused, .embryo, .zombie]) ∧
    (∀ pid ∈ m.forked, (m.waited.filter (·.pid = pid)).length ≤ 1) ∧
    (∀ w ∈ m.waited, w.parent = some w.caller) ∧
    ∀ p, (m.table p).state = .sleeping → m.pos p = .inWait →
      ∀ s, (m.table s).parent = some p → (m.table s).state ≠ .zombie := by
  have hi := Inv.run hr
  have hp := Pids.run hr hlt
  refine ⟨fun p q => hp.inj, fun p => ⟨fun hs => ?_, fun ⟨c, hc, _⟩ => hi.cpus.running hc⟩,
    fun p hpi hs => ?_, fun pid _ => ?_, hp.waited_parent, fun p hs hpos => (hi.waits p hs hpos).2⟩
  · obtain ⟨c, hc⟩ := hi.cpus.exists_cpu hs
    exact ⟨c, hc, fun c' hc' => hi.cpus.unique hc' hc⟩
  · have hst : (m.table p).state.live = true ∨ (m.table p).state = .zombie := by
      revert hs
      cases (m.table p).state <;> simp [State.live]
    obtain ⟨q, hq, hql⟩ := hi.family.parent hpi hst
    refine ⟨q, hq, ?_⟩
    revert hql
    cases (m.table q).state <;> simp [State.live]
  · have hcount := List.nodup_iff_count_le_one.mp hp.waited_nodup pid
    rwa [List.count_eq_length_filter, List.filter_map, List.length_map] at hcount

/-- On one CPU `initproc` forks and falls asleep in `wait`, the child runs and exits, and
`initproc` wakes up and reaps it. -/
def forkExitWait : List (Event Unit) :=
  [.schedule (), .fork (), .kstack () true, .copyuvm () true, .forkDone (), .wait (),
    .schedule (), .exit (), .schedule (), .schedule ()]

theorem process_table_forkExitWait : ∃ m : Machine Unit, Run boot forkExitWait m ∧
    m.forked = [2] ∧ m.waited = [⟨initproc, 2, some initproc⟩] ∧
    ∀ p, (m.table p).state = .running ↔ ∃! c, m.cpu c = some p := by
  have hexec : (forkExitWait.foldlM (guarded step anyEvent) boot).map
    (fun m => (m.forked, m.waited, m.created)) =
      some ([2], [⟨initproc, 2, some initproc⟩], 2) := by
    decide +kernel
  obtain ⟨m, hm, heq⟩ := Option.map_eq_some_iff.mp hexec
  simp only [Prod.mk.injEq] at heq
  have hrun := Run.of_foldlM hm
  exact ⟨m, hrun, heq.1, heq.2.1, (process_table hrun (by omega)).2.1⟩

end Dave.Proc
