import Dave.Resource.Processes

/-!
# Booting and running

`main` hands the memory after the kernel to the allocator, in two parts, and uses it for the page
table of the kernel, the stacks of the other processors and the first process. After it the accounts
are balanced, and they remain so in every run.
-/

namespace Dave.Resource

open Finset Memory
open Fs (nFile nOfile)
open Proc (Slot nproc initproc)

/-! ### The frames of the allocator -/

/-- The frames from `a` to `b`. -/
def frameRange (a b : ℕ) : Finset Frame := {f | a ≤ f.val ∧ f.val < b}

theorem mem_frameRange {a b : ℕ} {f : Frame} : f ∈ frameRange a b ↔ a ≤ f.val ∧ f.val < b := by
  rw [frameRange, mem_filter]
  exact and_iff_right (by simp)

/-- The frames that `kinit1` and `kinit2` hand to the allocator. -/
def pool (L : Layout) : Finset Frame := frameRange L.first L.phystop

theorem inRange_pool (L : Layout) : InRange L (pool L) := fun _ hf => mem_frameRange.mp hf

section Boot

variable {L : Layout} {P : Finset Frame} {X : Multiset Frame} {m : Mem} {s : State}

variable {f : Frame}

theorem wp_kfree_new (hf : f ∉ P) (h : Conserved P X m) :
    Wp (fun _ => True) (kfree L f) (fun _ m' => Conserved (P.cons f hf) X m' ∧ L.first ≤ f.val ∧
      f.val < L.phystop) m := by
  rw [kfree]
  split_ifs with hrange
  · trivial
  have hfree : f ∉ m.freelist := fun hmem => hf <| by
    rw [← mem_val, ← h.eq]
    exact Multiset.mem_add.mpr (.inl hmem)
  simp only [memset, wp_bind, wp_modify]
  refine ⟨⟨?_, by simp [h.refreed, hfree]⟩, by omega⟩
  rw [← Multiset.cons_coe, Multiset.cons_add, h.eq, cons_val]

theorem wp_freerange {a n : ℕ} (hn : a + n ≤ nPage) (hP : ∀ f ∈ P, f.val < a)
    (h : Conserved P X m) :
    Wp (fun _ => True) (freerange L a n) (fun _ m' => Conserved (P ∪ frameRange a (a + n)) X m' ∧
      ∀ f ∈ frameRange a (a + n), L.first ≤ f.val ∧ f.val < L.phystop) m := by
  induction n generalizing a P m with
  | zero =>
    have hempty : frameRange a (a + 0) = ∅ := by
      refine eq_empty_of_forall_notMem fun f hf => ?_
      have := mem_frameRange.mp hf
      omega
    rw [hempty, union_empty]
    exact ⟨h, by simp⟩
  | succ n ih =>
    have hval : (Fin.ofNat nPage a).val = a := Nat.mod_eq_of_lt (by omega)
    have hnew : Fin.ofNat nPage a ∉ P := fun hmem => by
      have := hP _ hmem
      omega
    rw [freerange, wp_bind]
    refine (wp_kfree_new hnew h).mono fun _ m' ⟨hm', hfirst, htop⟩ => ?_
    refine (ih (by omega) (fun f hf => ?_) hm').mono fun _ m'' ⟨hm'', hrange⟩ => ?_
    · rcases mem_cons.mp hf with rfl | hf
      · omega
      · have := hP f hf
        omega
    · have hsplit (f : Frame) : f ∈ frameRange a (a + (n + 1)) ↔
          f = Fin.ofNat nPage a ∨ f ∈ frameRange (a + 1) (a + 1 + n) := by
        rw [mem_frameRange, mem_frameRange, Fin.ext_iff, hval]
        omega
      constructor
      · have hunion : P.cons (Fin.ofNat nPage a) hnew ∪ frameRange (a + 1) (a + 1 + n) =
            P ∪ frameRange a (a + (n + 1)) := by
          ext f
          rw [mem_union, mem_union, mem_cons, hsplit]
          tauto
        rwa [← hunion]
      · intro f hf
        rcases (hsplit f).mp hf with rfl | hf
        · omega
        · exact hrange f hf

theorem wp_setupkvm_top (L : Layout) (m : Mem) :
    Wp (fun _ => True) (setupkvm L) (fun r _ => r ≠ none → L.phystop ≤ nPage) m := by
  rw [setupkvm, wp_bind]
  refine (Wp.of_true _ _).mono fun r m' _ => ?_
  cases r with
  | none => exact fun h => absurd rfl h
  | some f =>
    rw [wp_ite]
    split_ifs with htop
    · trivial
    · refine (Wp.of_true _ _).mono fun r m'' _ _ => ?_
      rw [nPage_eq]
      have hkern : kernPage = 0x80000 := rfl
      omega

/-! ### The invariant while booting -/

theorem reset_inv (refuse : ℕ → Bool) : Inv ∅ (reset refuse) where
  pages :=
    { cons := ⟨by simp [State.owned, reset, Process.frames, pipeFrames], rfl⟩
      sound := fun _ => by simp [Process.Sound, reset] }
  files :=
    { ref_eq := fun _ => by simp [refs, slots, State.tables, reset]
      none_of_ref := fun _ _ => rfl
      ends :=
        { mem := fun h => by simp [File.pipeEnd, reset] at h
          injective := fun h => by simp [File.pipeEnd, reset] at h
          used_iff := fun _ => by simp [State.opened, File.pipeEnd, reset] }
      alive := nofun
      readable := nofun }
  closed _ _ _ := rfl
  born _ := nofun

theorem Inv.setMem (h : Inv P s) {P' : Finset Frame} (hm : Conserved P' s.owned m) :
    Inv P' { s with mem := m } :=
  ⟨⟨hm.congr (add_zero _).symm, h.pages.sound⟩, h.files.setMem m, h.closed, h.born⟩

theorem Inv.setKpgdir (h : Inv P s) (hnone : s.kpgdir = none) {d : PageDir}
    (hm : Conserved P (d.frames + s.owned) m) : Inv P { s with mem := m, kpgdir := some d } where
  pages := by
    refine ⟨hm.congr ?_, h.pages.sound⟩
    simp only [State.owned, hnone, Option.elim_none, Option.elim_some, zero_add, add_zero,
      add_assoc]
  files := h.files.congr rfl rfl
  closed := h.closed
  born := h.born

theorem Inv.addCpuStack (h : Inv P s) (hm : Conserved P (f ::ₘ s.owned) m) :
    Inv P { s with mem := m, cpuStacks := f :: s.cpuStacks } where
  pages := by
    refine ⟨hm.congr ?_, h.pages.sound⟩
    rw [add_zero, ← Multiset.singleton_add]
    unfold State.owned
    dsimp only
    rw [← Multiset.cons_coe, ← Multiset.singleton_add]
    generalize (∑ q, (s.proc q).frames) = A
    generalize (∑ pg, pipeFrames pg (s.pipe pg)) = B
    abel
  files := h.files.congr rfl rfl
  closed := h.closed
  born := h.born

theorem wp_startothers {n : ℕ} (h : Inv P s) :
    Wp (fun _ => True) (startothers n) (fun _ s' => Inv P s') s := by
  induction n generalizing s with
  | zero => exact h
  | succ n ih =>
    simp only [startothers, wp_bind, wp_onMem]
    refine wp_kalloc (h.pages.cons.congr (add_zero _)) (fun _ _ _ _ => trivial)
      fun f m' hm' _ _ => ?_
    exact ih (h.addCpuStack hm')

theorem wp_userinit (hP : InRange L P) (h : Inv P s) :
    Wp (fun _ => True) (userinit L) (fun _ s' => s'.mem.failed = false → Inv P s') s := by
  rw [userinit, wp_bind]
  refine wp_allocproc h (fun _ _ => trivial) fun p f m hp hm _ => ?_
  simp only [wp_bind, wp_onMem]
  refine (((wp_setupkvm hP hm).and wp_setupkvm_safe).weaken fun _ _ => trivial).mono ?_
  rintro r m₁ ⟨⟨hm₁, -⟩, hsafe⟩
  cases r with
  | none => trivial
  | some d =>
    simp only [wp_bind, wp_onMem]
    refine wp_kalloc hm₁ (fun _ _ _ _ => trivial) fun mem m₂ hm₂ _ _ => ?_
    have hmap : Conserved P (d.frames + ({mem} + f ::ₘ s.owned)) m₂ := hm₂.congr (by
      rw [Option.elim_some, ← Multiset.singleton_add]
      abel)
    simp only [wp_bind, wp_onMem]
    refine ((wp_mappages_user trivial (by decide) hmap).and
      (wp_mappages_safe (hsafe d rfl) (show 0 + 1 ≤ kernPage by decide))).mono ?_
    rintro r m₃ ⟨⟨-, hm₃⟩, hsafe'⟩
    rw [wp_modifyProc]
    intro hfailed
    split_ifs at hm₃ with hr
    · have hproc (x y : Process) :
          ({ ({ s with mem := m } : State).setProc p x with mem := m₃ } : State).setProc p y =
            ({ s with mem := m₃ } : State).setProc p y :=
        ({ s with mem := m₃ } : State).setProc_setProc p x y
      simp only [State.setProc_proc_self]
      rw [hproc]
      have hpages : Pages P ({f} + r.2.frames) { s with mem := m₃ } := by
        refine h.pages.setMem (hm₃.congr ?_)
        rw [← Multiset.singleton_add]
        abel
      exact h.start (.mem m₃) (h.files.setMem m₃) hpages (Process.frames_unused hp) rfl rfl rfl
        (show pgSize ≤ kernBase by decide) hsafe' rfl
    · exact absurd hfailed (by simpa [State.setProc] using hm₃.2)

theorem fourMB_pos_le : 0 < fourMB ∧ fourMB ≤ nPage := by
  rw [nPage_eq, fourMB]
  omega

theorem wp_kinit1 (h : Conserved ∅ X m) :
    Wp (fun _ => True) (kinit1 L) (fun _ m' => Conserved (frameRange L.first fourMB) X m' ∧
      InRange L (frameRange L.first fourMB)) m := by
  rw [kinit1]
  rcases le_total L.first fourMB with hle | hle
  · have hn : L.first + (fourMB - L.first) = fourMB := by omega
    have hfree := wp_freerange (L := L) (a := L.first) (n := fourMB - L.first)
      (by rw [hn]; exact fourMB_pos_le.2) (by simp) h
    rw [hn, empty_union] at hfree
    exact hfree
  · have hempty : frameRange L.first fourMB = ∅ := by
      refine eq_empty_of_forall_notMem fun f hf => ?_
      have := mem_frameRange.mp hf
      omega
    rw [hempty, show fourMB - L.first = 0 by omega]
    exact ⟨h, fun f hf => absurd hf (notMem_empty f)⟩

theorem wp_kinit2 (hf : f ∈ frameRange L.first fourMB)
    (hrange : InRange L (frameRange L.first fourMB)) (htop : L.phystop ≤ nPage)
    (h : Conserved (frameRange L.first fourMB) X m) :
    Wp (fun _ => True) (kinit2 L) (fun _ m' => Conserved (pool L) X m') m := by
  have hf := mem_frameRange.mp hf
  have hpos := fourMB_pos_le
  have hlast : (Fin.ofNat nPage (fourMB - 1)).val = fourMB - 1 := Nat.mod_eq_of_lt (by omega)
  have hphys : fourMB - 1 < L.phystop := by
    have hmem : Fin.ofNat nPage (fourMB - 1) ∈ frameRange L.first fourMB := by
      rw [mem_frameRange, hlast]
      omega
    have hlt := (hrange _ hmem).2
    rwa [hlast] at hlt
  have hpool : pool L = frameRange L.first fourMB ∪ frameRange fourMB L.phystop := by
    ext g
    rw [pool, mem_union, mem_frameRange, mem_frameRange, mem_frameRange]
    omega
  have hn : fourMB + (L.phystop - fourMB) = L.phystop := by omega
  have hfree := wp_freerange (L := L) (a := fourMB) (n := L.phystop - fourMB) (by rwa [hn])
    (fun g hg => (mem_frameRange.mp hg).2) h
  rw [hn, ← hpool] at hfree
  exact Wp.mono hfree fun _ _ h' => h'.1

theorem wp_main (L : Layout) (ncpu : ℕ) (refuse : ℕ → Bool) :
    Wp (fun _ => True) (main L ncpu) (fun _ s => s.mem.failed = false → Inv (pool L) s)
      (reset refuse) := by
  have h₀ := reset_inv refuse
  have hc₀ : Conserved ∅ (reset refuse).owned (reset refuse).mem :=
    h₀.pages.cons.congr (add_zero _)
  simp only [main, wp_bind, wp_onMem]
  refine (wp_kinit1 hc₀).mono ?_
  rintro _ m₁ ⟨hm₁, hrange⟩
  have h₁ := h₀.setMem hm₁
  refine (((wp_setupkvm hrange hm₁).and (wp_setupkvm_top L m₁)).weaken fun _ _ => trivial).mono ?_
  rintro r m₂ ⟨⟨hm₂, -⟩, htop⟩
  cases r with
  | none => trivial
  | some d =>
    have hmem : d.frame ∈ frameRange L.first fourMB := by
      refine hm₂.mem_pool ?_
      rw [Option.elim_some, Multiset.mem_add]
      left
      exact d.frame_mem_frames
    simp only [wp_bind, wp_modify]
    refine (wp_startothers (h₁.setKpgdir rfl hm₂)).mono fun _ s₃ h₃ => ?_
    rw [wp_onMem]
    refine (wp_kinit2 hmem hrange (htop (by simp))
      (h₃.pages.cons.congr (add_zero _))).mono fun _ m₄ hm₄ => ?_
    exact wp_userinit (inRange_pool L) (h₃.setMem hm₄)

theorem Boots.inv (h : Boots L s) : Inv (pool L) s := by
  obtain ⟨refuse, ncpu, hmain, hfailed⟩ := h
  exact (wp_main L ncpu refuse).of_ok hmain hfailed

end Boot

/-! ### Runs -/

section Runs

variable {L : Layout} {P : Finset Frame} {s s' : State} {me : Slot}

/-- The calls by which a process changes only its own memory and descriptors. -/
def Call.own : Call → Bool
  | .fork | .exit | .wait => false
  | _ => true

theorem Done.call (hP : InRange L P) (h : Inv P s) (hlive : (s.proc me).state = .live) {call : Call}
    (hown : call.own = true) : Wp Fine (call.run L me) (fun _ s' => Done P me s s') s := by
  cases call with
  | «open» found omode => exact wp_sysOpen hP h hlive
  | dup fd => exact wp_sysDup h hlive
  | pipe => exact wp_sysPipe hP h hlive
  | close fd => exact wp_sysClose hP h hlive
  | exec img => exact wp_exec hP h hlive
  | sbrk n => exact wp_growproc hP h hlive
  | fork | exit | wait => exact absurd hown nofun

/-- Every call of a running process keeps the invariant, and only stops with a panic that does not
come from a wrong count. -/
theorem Inv.call (hP : InRange L P) (h : Inv P s) (hlive : (s.proc me).state = .live)
    (call : Call) : Wp Fine (call.run L me) (fun _ s' => Inv P s') s := by
  by_cases hown : call.own = true
  · exact (Done.call hP h hlive hown).mono fun _ _ hd => hd.inv
  cases call with
  | fork =>
    rw [Call.run, wp_bind]
    exact (wp_fork hP h hlive).mono fun _ _ hd => hd.1
  | exit => exact (wp_exit hP h hlive).mono fun _ _ hd => hd.1
  | wait =>
    rw [Call.run, wp_bind]
    exact (wp_wait hP h).mono fun _ _ hd => hd.1
  | _ => exact absurd rfl hown

variable {e : Slot × Call}

theorem step_eq_some :
    step L s e = some s' ↔ (s.proc e.1).state = .live ∧ e.2.run L e.1 s = .ok ((), s') := by
  unfold step
  split_ifs with hlive
  · cases he : e.2.run L e.1 s with
    | error p => simp [hlive]
    | ok r => simp [hlive, Prod.ext_iff]
  · simp [hlive]

theorem Inv.step (hP : InRange L P) (h : Inv P s) (hs : Resource.step L s e = some s') :
    Inv P s' := by
  obtain ⟨hlive, hrun⟩ := step_eq_some.mp hs
  exact (h.call hP hlive e.2).of_ok hrun

variable {es : List (Slot × Call)}

theorem Inv.run (hP : InRange L P) (h : Inv P s) (hrun : Runs L s es s') : Inv P s' :=
  hrun.invariant h fun h _ hs => h.step hP hs

/-- Booting on one processor while no call of `kalloc` fails, and then making calls. -/
def bootAndRun (L : Layout) (es : List (Slot × Call)) : Option (State × State) :=
  match main L 1 (reset fun _ => false) with
  | .ok (_, s₀) => (es.foldlM (guarded (Resource.step L) anyEvent) s₀).map (s₀, ·)
  | .error _ => none

theorem boots_of_bootAndRun (h : bootAndRun L es = some (s, s')) (hfailed : s.mem.failed = false) :
    Boots L s ∧ Runs L s es s' := by
  unfold bootAndRun at h
  split at h
  · next s₀ hmain =>
    obtain ⟨s₁, hrun, heq⟩ := Option.map_eq_some_iff.mp h
    obtain ⟨rfl, rfl⟩ := Prod.mk.inj heq
    exact ⟨⟨_, _, hmain, hfailed⟩, .of_foldlM hrun⟩
  · cases h

/-- A machine with forty frames. -/
def tiny : Layout where
  first := 1000
  phystop := 1040
  kmap := [⟨kernPage, 0, 1, true⟩]
  pos := by decide
  kern k hk := by
    obtain rfl := List.mem_singleton.mp hk
    exact ⟨le_rfl, by rw [nPage_eq]; decide⟩

/-- The second process. -/
def child : Slot := ⟨1, by decide⟩

end Runs

end Dave.Resource
