import Dave.Fs.Calls

/-!
# Between calls

When no process is in a call, the invariant of all processes comes down to a condition on the state
alone. It holds again whenever all calls have returned, whether they run one at a time or
interleaved at their lock operations.
-/

namespace Dave.Fs

open Interleave

variable {P : Type} [Fintype P] {s s' : State P}

/-- No process is in a call: the disk and the inode cache are in order, no inode is locked, the
reference counts are those of the open files and current directories, and processes that are not
live have neither. -/
structure Resting (s : State P) : Prop where
  store : StoreOk s
  dirs : DirsOk s
  table : TableOk s s.proc fun _ => 0
  unlocked : ∀ ip, (s.icache ip).lock = none
  dead : ∀ p, (s.proc p).state ≠ .live → (s.proc p).cwd = none ∧ ∀ fd, (s.proc p).ofile fd = none

theorem held_idle : held (fun _ : P => Ghost.idle) = fun _ => 0 :=
  funext fun _ => Finset.sum_eq_zero fun _ _ => rfl

omit [Fintype P] in
theorem owned_idle : owned s (fun _ => Ghost.idle) = s.proc :=
  funext fun _ => Ghost.Plain.own ⟨rfl, rfl⟩ _

theorem Resting.base (h : Resting s) : Base s fun _ => .idle where
  store := h.store
  dirs := h.dirs
  table := by
    rw [held_idle, owned_idle]
    exact h.table
  loc p := .of_idle fun ip => by rw [h.unlocked]; simp
  dead := h.dead

theorem Base.resting (h : Base s fun _ => .idle) : Resting s where
  store := h.store
  dirs := h.dirs
  table := by
    have htable := h.table
    rwa [held_idle, owned_idle] at htable
  unlocked ip := by
    by_contra hne
    obtain ⟨p, hp⟩ := Option.ne_none_iff_exists'.mp hne
    exact ((h.loc p).lock ip).mp hp rfl
  dead := h.dead

variable {κ : Scope} {old : History}

theorem Resting.global (h : Resting s) (hsb : s.sb = κ.sb)
    (hdots : κ.dots = true → (s.view.dino 0).type = 0 ∧
      ∀ i, (s.view.dino i).type = tDir → HasDots i (s.view.dirents i)) :
    Global κ s.dir s fun _ => .idle where
  sb_eq := hsb
  base := h.base
  made p ip hf := by simp [Ghost.idle] at hf
  dotted hd := ⟨(hdots hd).1, fun i hi => .inl ((hdots hd).2 i hi)⟩
  past _ := .refl

/-! ### Calls one at a time -/

variable [DecidableEq P]

/-- Calls of live processes, each run to its end before the next one begins: what they return, and
the state afterwards. Nothing if one of them does not return. -/
def runCalls : State P → List (P × Call P) → Option (List ℤ × State P)
  | s, [] => some ([], s)
  | s, (p, c) :: cs =>
    if (s.proc p).state = .live then
      match (c.prog p).exec p s with
      | .ok (r, s') => (runCalls s' cs).map fun x => (r :: x.1, x.2)
      | .error _ => none
    else none

theorem Resting.call (h : Resting s) {p : P} (hlive : (s.proc p).state = .live) {c : Call P}
    {r : ℤ} (hret : (c.prog p).exec p s = .ok (r, s')) : Resting s' := by
  have hG : Global ⟨s.sb, false⟩ s.dir s fun _ => .idle :=
    h.global rfl fun hd => by simp at hd
  have hok (s : State P) (gs : P → Ghost) (l : Slot) (t : Site) :
      (kernelLogic P ⟨s.sb, false⟩).Ok s gs p l t :=
    fun hd => by simp at hd
  obtain ⟨gs', hother, -, g, rfl, -, hG'⟩ :=
    (Logic.Cwp.wpx (F := fun _ => True) hok (fun _ _ => trivial) (fun _ _ _ _ _ _ _ _ _ => trivial)
      (c.cwp hG rfl hlive)).of_ok hret
  have hidle : Function.update gs' p .idle = fun _ => .idle := by
    funext q
    by_cases hq : q = p
    · rw [hq, Function.update_self]
    · rw [Function.update_of_ne hq, hother q hq]
  rw [hidle] at hG'
  exact (Global.base hG').resting

theorem Resting.runCalls (h : Resting s) {cs : List (P × Call P)} {rs : List ℤ}
    (hrun : runCalls s cs = some (rs, s')) : Resting s' := by
  induction cs generalizing s rs with
  | nil =>
    obtain ⟨-, rfl⟩ := Prod.mk.inj (Option.some.inj hrun)
    exact h
  | cons pc cs ih =>
    obtain ⟨p, c⟩ := pc
    rw [Fs.runCalls] at hrun
    split_ifs at hrun with hlive
    cases hret : (c.prog p).exec p s with
    | error e => simp [hret] at hrun
    | ok x =>
      rw [hret] at hrun
      obtain ⟨y, hy, hpair⟩ := Option.map_eq_some_iff.mp hrun
      obtain ⟨-, rfl⟩ := Prod.mk.inj hpair
      exact ih (h.call hlive hret) hy

/-! ### Calls of several processes at the same time -/

variable (P) in
/-- Processes that run calls. -/
abbrev KernelSys : Type := Sys (State P) Panic Slot Site ℤ P

/-- The processes reach `m` from `m₀`, in steps that satisfy `ok`, and in `m₀` none was in a call.
-/
structure Reached (ok : KernelSys P → P → Prop) (m₀ m : KernelSys P) : Prop where
  rested : Rested m₀
  resting : Resting m₀.shared
  reach : Reachable Started ok m₀ m

theorem inv_reset {m : KernelSys P} {gs : P → Ghost} (h : (kernelLogic P κ).Inv old m gs) :
    (kernelLogic P κ).Inv m.shared.dir m gs :=
  ⟨{ (h.shared : Global κ old m.shared gs) with past := fun _ => .refl }, h.returned,
    h.label, h.thread⟩

/-- The invariant of all processes is kept by steps, if those that lock a new directory find
it empty. -/
theorem Global.sound {m₀ m : KernelSys P} {gs₀ : P → Ghost}
    {ok : KernelSys P → P → Prop} (hpanic : m₀.panic = none)
    (h : (kernelLogic P κ).Inv old m₀ gs₀)
    (hok : κ.dots = true → ∀ m p l, request (m.thread p) = some (l, .createNew) → ok m p →
      m.shared.typ l = tDir → (m.shared.view.dino (m.shared.num l)).size = 0)
    (hreach : Reachable Started ok m₀ m) :
    (∃ gs, (kernelLogic P κ).Inv old m gs) ∧ ∀ e, m.panic = some e → e ≠ .freeingFreeBlock := by
  refine Logic.sound h hpanic ?_ ?_ hreach
  · rintro old s p _ gs ⟨hlive, c, rfl⟩ hG hidle
    exact c.cwp hG hidle hlive
  · rintro m gs p l _ _ _ hreq hokm hdots rfl
    exact hok hdots m p l hreq hokm

theorem Rested.inv {m : KernelSys P} (hrest : Rested m) (h : Global κ old m.shared fun _ => .idle) :
    (kernelLogic P κ).Inv old m fun _ => .idle := by
  refine ⟨h, fun _ _ _ => trivial, fun p => ?_, fun p => ?_⟩
  · rw [hrest.2 p]
    exact label_none
  · rw [hrest.2 p]
    rfl

namespace Reached

variable {ok : KernelSys P → P → Prop} {m₀ m : KernelSys P}

theorem inv (h : Reached ok m₀ m) :
    (∃ gs, (kernelLogic P ⟨m₀.shared.sb, false⟩).Inv m₀.shared.dir m gs) ∧
      ∀ e, m.panic = some e → e ≠ .freeingFreeBlock :=
  Global.sound h.rested.1 (h.rested.inv (h.resting.global rfl fun hd => by simp at hd))
    (fun hd => by simp at hd) h.reach

theorem base (h : Reached ok m₀ m) :
    ∃ gs, Base m.shared gs ∧ ∀ p, m.thread p = none → gs p = .idle := by
  obtain ⟨⟨gs, hinv⟩, -⟩ := h.inv
  refine ⟨gs, Global.base hinv.shared, fun p hp => ?_⟩
  have hthread := hinv.thread p
  rwa [hp] at hthread

end Reached

/-! ### Schedules -/

variable (P) in
/-- What a schedule lets happen next. -/
inductive Event where
  /-- a process begins a call -/
  | call (p : P) (c : Call P)
  /-- a process goes on for a number of lock operations, or until it has to wait -/
  | steps (p : P) (n : ℕ)

/-- A process goes on while it can and the steps satisfy `ok`. -/
def go (ok : KernelSys P → P → Bool) (p : P) : ℕ → KernelSys P → KernelSys P
  | 0, m => m
  | n + 1, m =>
    if m.panic = none ∧ ok m p = true then
      match m.resume p with
      | some m' => go ok p n m'
      | none => m
    else m

/-- The state that a schedule leads to. Nothing if a call cannot begin. -/
def play (ok : KernelSys P → P → Bool) : KernelSys P → List (Event P) → Option (KernelSys P)
  | m, [] => some m
  | m, .call p c :: es =>
    if m.panic = none ∧ (m.thread p).isNone ∧ (m.shared.proc p).state = .live then
      play ok (m.run p (c.prog p) m.shared) es
    else none
  | m, .steps p n :: es => play ok (go ok p n m) es

section Play

variable {ok : KernelSys P → P → Bool} {m m' : KernelSys P}
  {Start : State P → P → Kernel P ℤ → Prop}

omit [Fintype P] in
theorem go_reachable (p : P) (n : ℕ) (m : KernelSys P) :
    Reachable Start (fun m p => ok m p = true) m (go ok p n m) := by
  induction n generalizing m with
  | zero => exact .refl
  | succ n ih =>
    rw [go]
    split_ifs with h
    · cases hm : m.resume p with
      | none => exact .refl
      | some m' => exact .head ⟨p, .resume h.1 h.2 hm⟩ (ih m')
    · exact .refl

omit [Fintype P] in
theorem play_reachable {es : List (Event P)}
    (hstart : ∀ p c s, .call p c ∈ es → (s.proc p).state = .live → Start s p (c.prog p))
    (h : play ok m es = some m') : Reachable Start (fun m p => ok m p = true) m m' := by
  induction es generalizing m with
  | nil =>
    obtain rfl := Option.some.inj h
    exact .refl
  | cons e es ih =>
    have hrest (p : P) (c : Call P) (s : State P) (hmem : .call p c ∈ es) :=
      hstart p c s (List.mem_cons_of_mem e hmem)
    cases e with
    | call p c =>
      rw [play] at h
      split_ifs at h with hcall
      exact .head ⟨p, .start hcall.1 (Option.isNone_iff_eq_none.mp hcall.2.1)
        (hstart p c _ List.mem_cons_self hcall.2.2)⟩ (ih hrest h)
    | steps p n => exact (go_reachable p n m).trans (ih hrest h)

end Play

end Dave.Fs
