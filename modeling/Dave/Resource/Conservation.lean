import Dave.Resource.References

/-!
# The conservation of page frames

In every run, with `kalloc` failing at any call, every frame of the allocator is once on the free
list or owned once. So programs never share a page, no page they can use is free, and a process that
has been made, has done what it liked with its own memory and descriptors, and has been waited for
leaves the set of free frames as it was.
-/

namespace Dave.Resource

open Multiset Option Memory
open Fs (nFile nOfile)
open Proc (Slot nproc initproc)

/-! ### The frames that programs can use -/

/-- Page `i` of process `p` is in frame `f`, and the program of the process can use it. -/
def State.Usable (s : State) (p : Slot) (i : ℕ) (f : Frame) : Prop :=
  ((s.proc p).state = .live ∨ (s.proc p).state = .zombie) ∧ i < nPage ∧
    ∃ d e, (s.proc p).pgdir = some d ∧ d.pte i = some e ∧ e.present = true ∧ e.user = true ∧
      e.frame = f

section Usable

variable {P : Finset Frame} {s : State} {p q : Slot} {i j : ℕ} {f : Frame} {d : PageDir} {e : Pte}

theorem lt_kernPage_of_safe (h : d.Safe) (hi : i < nPage) (he : d.pte i = some e)
    (huser : e.user = true) : i < kernPage := by
  by_contra hk
  obtain ⟨t, ht, rfl⟩ := map_eq_some_iff.mp he
  have hpdx : 512 ≤ (pdx i).val := by
    by_contra hlt
    exact hk ((pdx_lt_iff hi).mp (by omega))
  rw [h _ t ht hpdx] at huser
  cases huser

theorem pgdir_le_frames (hp : (s.proc p).state = .live ∨ (s.proc p).state = .zombie)
    (hd : (s.proc p).pgdir = some d) : d.frames ≤ (s.proc p).frames := by
  have hframes : (s.proc p).frames = (s.proc p).kstack.elim 0 ({·}) + d.frames := by
    rcases hp with hp | hp <;> simp [Process.frames, hp, hd]
  rw [hframes]
  exact le_add_left _ _

theorem Inv.nodup_procs (h : Inv P s) : (∑ p, (s.proc p).frames).Nodup := by
  have hnodup := (nodup_add.mp h.pages.cons.nodup_add).2.1
  rw [add_zero, State.owned] at hnodup
  exact (nodup_add.mp (nodup_add.mp hnodup).1).2.1

theorem Inv.usable_mem (h : Inv P s) (hu : s.Usable p i f) : f ∈ (s.proc p).frames := by
  obtain ⟨hp, hi, d, e, hd, he, hpresent, huser, rfl⟩ := hu
  have hsafe := (h.pages.sound p hp).2.2.2 d hd
  exact mem_of_le (pgdir_le_frames hp hd)
    (PageDir.mem_frames (lt_kernPage_of_safe hsafe hi he huser) he hpresent)

theorem Inv.usable_inj (h : Inv P s) (hu : s.Usable p i f) (hu' : s.Usable q j f) :
    p = q ∧ i = j := by
  obtain rfl : p = q := eq_of_nodup_sum h.nodup_procs (h.usable_mem hu) (h.usable_mem hu')
  obtain ⟨hp, hi, d, e, hd, he, hpresent, huser, rfl⟩ := hu
  obtain ⟨-, hj, d', e', hd', he', hpresent', huser', hframe⟩ := hu'
  obtain rfl : d = d' := some.inj (hd.symm.trans hd')
  have hsafe := (h.pages.sound p hp).2.2.2 d hd
  have hnodup : d.frames.Nodup :=
    nodup_of_le (pgdir_le_frames hp hd) (nodup_of_nodup_sum h.nodup_procs p)
  exact ⟨rfl, PageDir.pte_injective hnodup (lt_kernPage_of_safe hsafe hi he huser)
    (lt_kernPage_of_safe hsafe hj he' huser') he hpresent he' hpresent' hframe.symm⟩

theorem Inv.usable_notMem (h : Inv P s) (hu : s.Usable p i f) : f ∉ s.mem.freelist := by
  refine h.pages.cons.disjoint ?_
  rw [add_zero, State.owned, mem_add, mem_add]
  exact .inl (.inr (mem_sum_of_mem p (h.usable_mem hu)))

end Usable

/-! ### The life of a child -/

section Child

variable {L : Layout} {P : Finset Frame} {s s' : State} {c p : Slot}

variable {es : List (Slot × Call)}

theorem Done.run (hP : InRange L P) (h : Inv P s) (hlive : (s.proc c).state = .live)
    (hrun : Run (Resource.step L) (fun _ e => e.1 = c ∧ e.2.own = true) s es s') :
    Done P c s s' := by
  refine hrun.invariant (I := Done P c s) (.refl h hlive) ?_
  rintro s₁ ⟨q, call⟩ s₂ h₁ ⟨rfl, hown⟩ hs
  have h₂ := (Done.call hP h₁.inv h₁.live hown).of_ok (step_eq_some.mp hs).2
  exact ⟨h₂.inv, h₁.loc.trans h₂.loc, h₂.live⟩

theorem exists_of_refs_pos {tbl : Table} {f : Fin nFile} (h : 0 < refs tbl f) :
    ∃ q fd, tbl q fd = some f := by
  obtain ⟨q, -, hq⟩ := Finset.exists_ne_zero_of_sum_ne_zero h.ne'
  obtain ⟨fd, -, hfd⟩ := Finset.exists_ne_zero_of_sum_ne_zero hq
  exact ⟨q, fd, by simpa using hfd⟩

theorem Inv.pipe_ne_none_iff (h : Inv P s) {pg : Frame} : s.pipe pg ≠ none ↔
      ∃ q fd f w, (s.proc q).ofile fd = some f ∧ (s.file f).pipeEnd = some (pg, w) := by
  constructor
  · intro hpg
    obtain ⟨e, he⟩ := ne_none_iff_exists'.mp hpg
    obtain ⟨w, hw⟩ : ∃ w, e.isOpen w = true := by
      rcases h.files.alive pg e he with hr | hw
      · exact ⟨false, hr⟩
      · exact ⟨true, hw⟩
    obtain ⟨f, hpos, hf⟩ := (h.isOpen_iff he w).mp hw
    rw [h.files.ref_eq f, count_zero, add_zero] at hpos
    obtain ⟨q, fd, hfd⟩ := exists_of_refs_pos hpos
    exact ⟨q, fd, f, w, hfd, pipeEnd_eq_some.mpr hf⟩
  · rintro ⟨q, fd, f, w, -, hend⟩
    obtain ⟨hf, rfl, -⟩ := pipeEnd_eq_some.mp hend
    exact h.pipe_ne_none hf

theorem Local.pipe_iff (hloc : Local c s s') (h : Inv P s) (h' : Inv P s')
    (hc : (s.proc c).state = .unused) (hc' : (s'.proc c).state = .unused) {pg : Frame} :
    s'.pipe pg ≠ none ↔ s.pipe pg ≠ none := by
  rw [h.pipe_ne_none_iff, h'.pipe_ne_none_iff]
  constructor
  · rintro ⟨q, fd, f, w, hfd, hend⟩
    have hq : q ≠ c := by
      rintro rfl
      rw [h'.closed q (by rw [hc']; nofun)] at hfd
      cases hfd
    rw [hloc.ofile hq] at hfd
    rw [hloc.ends f ⟨q, hq, fd, hfd⟩] at hend
    exact ⟨q, fd, f, w, hfd, hend⟩
  · rintro ⟨q, fd, f, w, hfd, hend⟩
    have hq : q ≠ c := by
      rintro rfl
      rw [h.closed q (by rw [hc]; nofun)] at hfd
      cases hfd
    rw [← hloc.ends f ⟨q, hq, fd, hfd⟩] at hend
    rw [← hloc.ofile hq] at hfd
    exact ⟨q, fd, f, w, hfd, hend⟩

theorem Local.free_iff (hloc : Local c s s') (h : Inv P s) (h' : Inv P s')
    (hc : (s.proc c).state = .unused) (hc' : (s'.proc c).state = .unused) {f : Frame} :
    f ∈ s'.mem.freelist ↔ f ∈ s.mem.freelist := by
  have howned : s'.owned = s.owned := by
    refine State.owned_congr (fun q => ?_) hloc.kpgdir hloc.cpuStacks fun pg => ?_
    · by_cases hq : q = c
      · subst hq
        rw [Process.frames_unused hc, Process.frames_unused hc']
      · exact hloc.frames hq
    · have hiff : s'.pipe pg ≠ none ↔ s.pipe pg ≠ none := hloc.pipe_iff h h' hc hc'
      cases hpg : s.pipe pg <;> cases hpg' : s'.pipe pg <;> simp_all [pipeFrames]
  have hfree : (s'.mem.freelist : Multiset Frame) = s.mem.freelist := by
    refine add_right_cancel (b := s.owned + 0) (Eq.trans ?_ h.pages.cons.eq.symm)
    rw [← howned]
    exact h'.pages.cons.eq
  rw [← mem_coe, hfree, mem_coe]

/-- A process that has been made, has changed only its own memory and descriptors, has exited and
has been waited for leaves the set of free frames as it was. -/
theorem Inv.free_of_child (hP : InRange L P) (h : Inv P s) (hlive : (s.proc p).state = .live)
    {s₁ s₂ s₃ s₄ : State} (hfork : fork L p s = .ok (some c, s₁))
    (hrun : Run (Resource.step L) (fun _ e => e.1 = c ∧ e.2.own = true) s₁ es s₂)
    (hexit : exit L c s₂ = .ok ((), s₃)) (hwait : wait L p s₃ = .ok (some c, s₄)) (f : Frame) :
    f ∈ s₄.mem.freelist ↔ f ∈ s.mem.freelist := by
  obtain ⟨h₁, hchild⟩ := (wp_fork hP h hlive).of_ok hfork
  obtain ⟨hloc₁, hunused, hlive₁, -⟩ := hchild c rfl
  have h₂ := Done.run hP h₁ hlive₁ hrun
  obtain ⟨h₃, hloc₃, -⟩ := (wp_exit hP h₂.inv h₂.live).of_ok hexit
  obtain ⟨h₄, hgone⟩ := (wp_wait hP h₃).of_ok hwait
  obtain ⟨hloc₄, -, -, hunused₄⟩ := hgone c rfl
  exact (((hloc₁.trans h₂.loc).trans hloc₃).trans hloc₄).free_iff h h₄ hunused hunused₄

end Child

/-! ### Every run -/

/-- **Page frames are conserved and never shared.** -/
theorem frames_conserved {L : Layout} {s₀ s : State} {es : List (Slot × Call)} (hboot : Boots L s₀)
    (hrun : Runs L s₀ es s) :
    (∀ f ∈ pool L, s.mem.freelist.count f + s.owned.count f = 1) ∧
    (∀ f, f ∈ s.mem.freelist ∨ f ∈ s.owned → f ∈ pool L) ∧
    (∀ p i q j f, s.Usable p i f → s.Usable q j f → p = q ∧ i = j) ∧
    (∀ p i f, s.Usable p i f → f ∉ s.mem.freelist) ∧
    s.mem.refreed = false ∧
    (∀ p c es' s₁ s₂ s₃ s₄, (s.proc p).state = .live → fork L p s = .ok (some c, s₁) →
      Run (Resource.step L) (fun _ e => e.1 = c ∧ e.2.own = true) s₁ es' s₂ →
        exit L c s₂ = .ok ((), s₃) →
      wait L p s₃ = .ok (some c, s₄) → ∀ f, f ∈ s₄.mem.freelist ↔ f ∈ s.mem.freelist) := by
  have hP := inRange_pool L
  have h : Inv (pool L) s := hboot.inv.run hP hrun
  have heq := h.pages.cons.eq
  rw [add_zero] at heq
  refine ⟨fun f hf => ?_, fun f hf => ?_, fun p i q j f => h.usable_inj,
    fun p i f => h.usable_notMem, h.pages.cons.refreed,
    fun p c es' s₁ s₂ s₃ s₄ hlive hfork hrun hexit hwait =>
      h.free_of_child hP hlive hfork hrun hexit hwait⟩
  · rw [← coe_count, ← count_add, heq]
    exact count_eq_one_of_mem (pool L).nodup hf
  · rw [← Finset.mem_val, ← heq, mem_add, mem_coe]
    exact hf

/-- A state, and those in which the second process has been made, has made the calls `es`, has
exited and has been waited for, with what `fork` and `wait` return. -/
def lifeOfChild (L : Layout) (es : List (Slot × Call)) (s : State) :
    Option ((Option Slot × State) × State × State × Option Slot × State) := do
  let r ← (fork L initproc s).toOption
  let s₂ ← es.foldlM (guarded (step L) fun _ e => e.1 = child ∧ e.2.own = true) r.2
  let (_, s₃) ← (exit L child s₂).toOption
  let r' ← (wait L initproc s₃).toOption
  return (r, s₂, s₃, r')

theorem eq_ok_of_toOption {α : Type} {x : Except Panic α} {a : α} (h : x.toOption = some a) :
    x = .ok a := by
  cases x with
  | error e => cases h
  | ok b => exact congrArg Except.ok (some.inj h)

theorem lifeOfChild_eq_some {L : Layout} {es : List (Slot × Call)} {s s₂ s₃ : State}
    {r r' : Option Slot × State} (h : lifeOfChild L es s = some (r, s₂, s₃, r')) :
    fork L initproc s = .ok r ∧ Run (step L) (fun _ e => e.1 = child ∧ e.2.own = true) r.2 es s₂ ∧
      exit L child s₂ = .ok ((), s₃) ∧ wait L initproc s₃ = .ok r' := by
  unfold lifeOfChild at h
  obtain ⟨r₁, h₁, h⟩ := bind_eq_some_iff.mp h
  obtain ⟨t₂, h₂, h⟩ := bind_eq_some_iff.mp h
  obtain ⟨⟨_, t₃⟩, h₃, h⟩ := bind_eq_some_iff.mp h
  obtain ⟨r₄, h₄, h⟩ := bind_eq_some_iff.mp h
  simp only [Option.pure_def, some.injEq, Prod.mk.injEq] at h
  obtain ⟨rfl, rfl, rfl, rfl⟩ := h
  exact ⟨eq_ok_of_toOption h₁, .of_foldlM h₂, eq_ok_of_toOption h₃, eq_ok_of_toOption h₄⟩

theorem frames_conserved_child : ∃ s₀ s₁ s₂ s₃ s₄, Boots tiny s₀ ∧
    fork tiny initproc s₀ = .ok (some child, s₁) ∧
    Run (step tiny) (fun _ e => e.1 = child ∧ e.2.own = true) s₁
      [(child, .pipe), (child, .sbrk 4096)] s₂ ∧
    exit tiny child s₂ = .ok ((), s₃) ∧ wait tiny initproc s₃ = .ok (some child, s₄) ∧
    ∀ f, f ∈ s₄.mem.freelist ↔ f ∈ s₀.mem.freelist := by
  have hvalue : ((bootAndRun tiny []).bind fun r =>
      (lifeOfChild tiny [(child, .pipe), (child, .sbrk 4096)] r.1).map fun r' =>
        (r.1.mem.failed, (r.1.proc initproc).state, r'.1.1, r'.2.2.2.1)) =
          some (false, .live, some child, some child) := by decide +kernel
  obtain ⟨⟨s₀, s⟩, hs, hlife⟩ := bind_eq_some_iff.mp hvalue
  obtain ⟨⟨⟨r₁, s₁⟩, s₂, s₃, r₄, s₄⟩, hlife, heq⟩ := map_eq_some_iff.mp hlife
  simp only [Prod.mk.injEq] at heq
  obtain ⟨hfailed, hlive, rfl, rfl⟩ := heq
  obtain ⟨hboot, -⟩ := boots_of_bootAndRun hs hfailed
  obtain ⟨hfork, hrun, hexit, hwait⟩ := lifeOfChild_eq_some hlife
  exact ⟨s₀, s₁, s₂, s₃, s₄, hboot, hfork, hrun, hexit, hwait, fun f =>
    (frames_conserved hboot .nil).2.2.2.2.2 initproc child _ s₁ s₂ s₃ s₄ hlive hfork hrun hexit
      hwait f⟩

end Dave.Resource
