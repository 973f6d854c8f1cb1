import Dave.Resource.Invariant

/-!
# Processes and their address spaces

The calls that make, change and end processes keep the accounts: `exec` and `sbrk` replace the
address space of the caller, `fork` makes a process with a kernel stack, an address space and
descriptors of its own, `exit` gives up the descriptors and `wait` the rest.
-/

namespace Dave.Resource

open Memory
open Fs (nFile nOfile)
open Proc (Slot nproc initproc)

variable {L : Layout} {pool : Finset Frame} {X : Multiset Frame} {s : State} {me : Slot}

/-! ### Loading programs -/

section Load

variable {m : Mem} {d : PageDir}

theorem wp_loaduvm {readi : ℕ → Bool} {i n : ℕ} :
    Wp Fine (loaduvm d readi i n) (fun _ m' => m' = m) m := by
  induction n generalizing i with
  | zero => rfl
  | succ n ih =>
    simp only [loaduvm, wp_bind, wp_ite, wp_throw]
    split_ifs
    · decide
    · exact ih
    · rfl

theorem frames_clearUser {i : ℕ} (hi : i < nPage) {e : Pte} (he : d.pte i = some e) :
    (d.setPte i { e with user := false }).frames = d.frames :=
  add_right_cancel (d.frames_setPte hi he { e with user := false })

theorem wp_clearpteu {i : ℕ} (hi : i < nPage) (h : Conserved pool (d.frames + X) m) :
    Wp Fine (clearpteu d i) (fun d' m' => Conserved pool (d'.frames + X) m') m := by
  unfold clearpteu
  split
  · exact (by decide : Fine .clearpteu)
  · next e he => exact h.congr (by rw [frames_clearUser hi he])

theorem wp_loadSegments (hpool : InRange L pool) {phs : List ProgHdr} {sz : ℕ} (hsz : sz ≤ kernBase)
    (h : Conserved pool (d.frames + X) m) (hsafe : d.Safe) :
    Wp Fine (loadSegments L d sz phs) (fun r m' => (Conserved pool (r.2.2.frames + X) m' ∧
      r.2.1 ≤ kernBase) ∧ r.2.2.Safe) m := by
  induction phs generalizing d sz m with
  | nil => exact ⟨⟨h, hsz⟩, hsafe⟩
  | cons ph phs ih =>
    rw [loadSegments]
    by_cases hread : ph.read = false
    · rw [if_pos hread]
      exact ⟨⟨h, hsz⟩, hsafe⟩
    by_cases hload : ph.load = false
    · rw [if_neg hread, if_pos hload]
      exact ih hsz h hsafe
    by_cases hmem : ph.memsz < ph.filesz
    · rw [if_neg hread, if_neg hload, if_pos hmem]
      exact ⟨⟨h, hsz⟩, hsafe⟩
    by_cases hwrap : ph.vaddr + ph.memsz < ph.vaddr
    · rw [if_neg hread, if_neg hload, if_neg hmem, if_pos hwrap]
      exact ⟨⟨h, hsz⟩, hsafe⟩
    rw [if_neg hread, if_neg hload, if_neg hmem, if_neg hwrap, wp_bind]
    refine ((wp_allocuvm hpool hsz h).and (wp_allocuvm_safe hsafe)).mono fun r m' hm' => ?_
    simp only [wp_ite, wp_bind, wp_pure]
    split_ifs
    · exact hm'
    · exact hm'
    · refine wp_loaduvm.mono fun b m'' hm'' => ?_
      subst hm''
      split_ifs
      · exact ih hm'.1.2 hm'.1.1 hm'.2
      · exact hm'

theorem wp_loadImage (hpool : InRange L pool) {img : Image} (h : Conserved pool (d.frames + X) m)
    (hsafe : d.Safe) :
    Wp Fine (loadImage L d img) (fun r m' => (Conserved pool (r.2.2.frames + X) m' ∧
      r.2.1 ≤ kernBase) ∧ r.2.2.Safe) m := by
  rw [loadImage, wp_bind]
  refine (wp_loadSegments hpool (Nat.zero_le _) h hsafe).mono fun r m' hm' => ?_
  simp only [wp_ite, wp_bind, wp_pure]
  split_ifs
  · exact hm'
  have hsz : pages r.2.1 * pgSize ≤ kernBase := by
    have hpages := Nat.mul_le_mul_right pgSize (pages_le_kernPage hm'.1.2)
    rwa [show kernPage * pgSize = kernBase by decide] at hpages
  generalize pages r.2.1 * pgSize + 2 * pgSize = newsz
  refine ((wp_allocuvm hpool hsz hm'.1.1).and (wp_allocuvm_safe hm'.2)).mono
    fun r' m'' hm'' => ?_
  split_ifs
  · exact hm''
  have hpage : r'.1 / pgSize - 2 < nPage := by
    refine lt_nPage ?_
    have hle : r'.1 / pgSize ≤ kernBase / pgSize := Nat.div_le_div_right hm''.1.2
    have hkern : kernBase / pgSize = kernPage := rfl
    have hpos : 0 < kernPage := by decide
    omega
  exact ((wp_clearpteu hpage hm''.1.1).and (wp_clearpteu_safe hpage hm''.2)).mono
    fun d' m₃ hm₃ => ⟨⟨hm₃.1, hm''.1.2⟩, hm₃.2⟩

end Load

/-! ### Address spaces -/

section Space

theorem Pages.of_live (h : Pages pool X s) (hlive : (s.proc me).state = .live) :
    ∃ f d, (s.proc me).kstack = some f ∧ (s.proc me).pgdir = some d ∧
      (s.proc me).sz ≤ kernBase ∧ d.Safe := by
  obtain ⟨hk, hd, hsz, hsafe⟩ := h.sound me (.inl hlive)
  obtain ⟨f, hf⟩ := Option.ne_none_iff_exists'.mp hk
  obtain ⟨d, hd⟩ := Option.ne_none_iff_exists'.mp hd
  exact ⟨f, d, hf, hd, hsz, hsafe d hd⟩

/-- The address space of a running process is replaced. -/
def State.setSpace (s : State) (p : Slot) (d : PageDir) (sz : ℕ) : State :=
  s.setProc p { s.proc p with pgdir := some d, sz := sz }

theorem State.exists_owned_space (hlive : (s.proc me).state = .live) {d : PageDir}
    (hd : (s.proc me).pgdir = some d) :
    ∃ Y, s.owned = d.frames + Y ∧
      ∀ d' sz m, (({ s with mem := m } : State).setSpace me d' sz).owned = d'.frames + Y := by
  have hframes (d' : PageDir) (sz : ℕ) :
      ({ s.proc me with pgdir := some d', sz := sz } : Process).frames =
        (s.proc me).kstack.elim 0 ({·}) + d'.frames := by
    simp [Process.frames, hlive]
  have hnone : ({ s.proc me with pgdir := none } : Process).frames =
      (s.proc me).kstack.elim 0 ({·}) := by
    simp [Process.frames, hlive]
  have hself : (s.proc me).frames = (s.proc me).kstack.elim 0 ({·}) + d.frames := by
    simp [Process.frames, hlive, hd]
  generalize (s.proc me).kstack.elim (0 : Multiset Frame) ({·}) = K at hframes hnone hself
  have hY := s.owned_setProc me { s.proc me with pgdir := none }
  rw [hnone, hself] at hY
  generalize (s.setProc me { s.proc me with pgdir := none }).owned = Y at hY
  have howned : s.owned = d.frames + Y := by
    refine add_right_cancel (b := K) (hY.symm.trans ?_)
    abel
  refine ⟨Y, howned, fun d' sz m => ?_⟩
  have hset : (({ s with mem := m } : State).setSpace me d' sz).owned + (s.proc me).frames =
      s.owned + _ := ({ s with mem := m } : State).owned_setProc me _
  rw [hframes, hself, howned] at hset
  refine add_right_cancel (b := K + d.frames) (hset.trans ?_)
  abel

theorem Done.setSpace (h : Inv pool s) (hlive : (s.proc me).state = .live) {d : PageDir} {sz : ℕ}
    {m : Mem} (hsz : sz ≤ kernBase) (hsafe : d.Safe)
    (hm : Conserved pool (({ s with mem := m } : State).setSpace me d sz).owned m) :
    Done pool me s (({ s with mem := m } : State).setSpace me d sz) := by
  have hsound : ({ s.proc me with pgdir := some d, sz := sz } : Process).Sound := fun hx =>
    ⟨(h.pages.sound me hx).1, by simp, hsz, fun _ hd => Option.some.inj hd ▸ hsafe⟩
  refine .of_files h ?_ ((Local.mem m).trans (.setProc _))
    ⟨hm.congr (add_zero _).symm, sound_setProc h.pages.sound hsound⟩
    ((h.files.setMem m).setProc rfl)
  simpa [State.setSpace] using hlive

/-- `growproc` of an address space conserves the frames. -/
theorem wp_growproc_conserved (hpool : InRange L pool) {d : PageDir} {sz : ℕ} {n : ℤ}
    {Y : Multiset Frame} {m : Mem} (hsz : sz ≤ kernBase) (hsafe : d.Safe)
    (h : Conserved pool (d.frames + Y) m) :
    Wp Fine (Memory.growproc L d sz n) (fun r m' => r.2.1 ≤ kernBase ∧ r.2.2.Safe ∧
      Conserved pool (r.2.2.frames + Y) m') m := by
  unfold Memory.growproc
  dsimp only
  split_ifs
  · rw [wp_bind]
    refine ((wp_allocuvm hpool hsz h).and (wp_allocuvm_safe hsafe)).mono fun r m hm => ?_
    rw [wp_pure]
    split_ifs
    · exact ⟨hsz, hm.2, hm.1.1⟩
    · exact ⟨hm.1.2, hm.2, hm.1.1⟩
  · rw [wp_bind]
    refine ((wp_deallocuvm hpool hsz h).and (wp_deallocuvm_safe hsz hsafe)).mono fun r m hm => ?_
    rw [wp_pure]
    split_ifs
    · exact ⟨hsz, hm.2, hm.1.1.1⟩
    · exact ⟨hm.1.2.2.trans hsz, hm.2, hm.1.1.1⟩
  · exact ⟨hsz, hsafe, h⟩

theorem wp_growproc (hpool : InRange L pool) {n : ℤ} (h : Inv pool s)
    (hlive : (s.proc me).state = .live) :
    Wp Fine (growproc L me n) (fun _ s' => Done pool me s s') s := by
  obtain ⟨f, d, hf, hd, hsz, hsafe⟩ := h.pages.of_live hlive
  obtain ⟨Y, howned, hspace⟩ := s.exists_owned_space hlive hd
  have hcons : Conserved pool (d.frames + Y) s.mem :=
    h.pages.cons.congr (by rw [howned, add_zero])
  simp only [growproc, wp_bind, wp_get, hd, wp_onMem]
  refine (wp_growproc_conserved hpool hsz hsafe hcons).mono fun r m hr => ?_
  obtain ⟨hsz', hsafe', hm⟩ := hr
  rw [wp_modifyProc]
  exact .setSpace h hlive hsz' hsafe' (by rwa [hspace])

theorem Done.setMem (h : Inv pool s) (hlive : (s.proc me).state = .live) {m : Mem}
    (hm : Conserved pool s.owned m) : Done pool me s { s with mem := m } :=
  .of_files h hlive (.mem m) (h.pages.setMem (hm.congr (add_zero _).symm)) (h.files.setMem m)

/-- The new address space replaces the old one, or is freed. -/
theorem wp_exec (hpool : InRange L pool) {img : Image} (h : Inv pool s)
    (hlive : (s.proc me).state = .live) :
    Wp Fine (exec L me img) (fun _ s' => Done pool me s s') s := by
  obtain ⟨f, old, hf, hold, hsz, hsafe⟩ := h.pages.of_live hlive
  obtain ⟨Y, howned, hspace⟩ := s.exists_owned_space hlive hold
  have hcons : Conserved pool s.owned s.mem := h.pages.cons.congr (add_zero _)
  rw [exec]
  split_ifs with helf
  · exact .refl h hlive
  rw [wp_bind, wp_onMem]
  refine ((wp_setupkvm hpool hcons).and wp_setupkvm_safe).mono fun r m ⟨⟨hm, _⟩, hnew⟩ => ?_
  cases r with
  | none => exact .setMem h hlive (hm.congr (zero_add _))
  | some d =>
    rw [wp_bind, wp_onMem]
    refine (wp_loadImage hpool hm (hnew d rfl)).mono fun r m' ⟨hm', hsafe'⟩ => ?_
    rw [wp_ite]
    split_ifs
    · rw [wp_onMem]
      exact (wp_freevm hpool hm'.1).mono fun _ m'' hm'' => .setMem h hlive hm''.1
    · simp only [wp_bind, wp_get, hold, wp_modifyProc, wp_onMem]
      have hfree : Conserved pool (old.frames + (r.2.2.frames + Y)) m' :=
        hm'.1.congr (by rw [howned]; abel)
      exact (wp_freevm hpool hfree).mono fun _ m'' hm'' =>
        .setSpace h hlive hm'.2 hsafe' (by rw [hspace]; exact hm''.1)

end Space

/-! ### Making processes -/

section Fork

variable {x : Process}

theorem Process.frames_unused (h : x.state = .unused) : x.frames = 0 := by
  rw [Process.frames, h]

theorem Process.sound_unused (h : x.state = .unused) : x.Sound := by
  simp [Process.Sound, h]

theorem Inv.setUnused (h : Inv pool s) {p : Slot} (hp : (s.proc p).state = .unused)
    (hx : x.state = .unused) (hofile : x.ofile = (s.proc p).ofile) {m : Mem}
    (hm : Conserved pool s.owned m) : Inv pool (({ s with mem := m } : State).setProc p x) := by
  have hP : Pages pool 0 ({ s with mem := m } : State) :=
    h.pages.setMem (hm.congr (add_zero _).symm)
  refine h.of_local ((Local.mem m).trans (.setProc x)) (hP.setProc (Process.sound_unused hx) ?_)
    ((h.files.setMem m).setProc hofile) ?_ ?_
  · rw [Process.frames_unused hx, Process.frames_unused hp]
  · intro _ fd
    rw [State.setProc_proc_self, hofile]
    exact h.closed p (by rw [hp]; nofun) fd
  · rw [State.setProc_proc_self, hx]
    nofun

/-- `allocproc` takes an unused process and a frame for its kernel stack, or fails without a
trace. -/
theorem wp_allocproc {E : Panic → Prop} {Q : Option Slot → State → Prop} (h : Inv pool s)
    (hnone : ∀ s', Inv pool s' → Q none s')
    (hsome : ∀ p f m, (s.proc p).state = .unused → Conserved pool (f ::ₘ s.owned) m →
      m.failed = s.mem.failed → Q (some p) (({ s with mem := m } : State).setProc p
        { s.proc p with state := .embryo, kstack := some f })) :
    Wp E allocproc Q s := by
  simp only [allocproc, wp_bind, wp_get]
  split
  · exact hnone s h
  · next p hp =>
    have hunused : (s.proc p).state = .unused := by simpa using List.find?_some hp
    have hcons : Conserved pool s.owned s.mem := h.pages.cons.congr (add_zero _)
    have hproc (m : Mem) (x y : Process) : ({ s.setProc p x with mem := m } : State).setProc p y =
          ({ s with mem := m } : State).setProc p y :=
      ({ s with mem := m } : State).setProc_setProc p x y
    simp only [wp_bind, wp_modifyProc, wp_onMem]
    refine wp_kalloc hcons (fun m hm _ _ => ?_) fun f m hm hfailed _ => ?_
    · rw [wp_bind, wp_modifyProc, wp_pure, hproc]
      exact hnone _ (h.setUnused hunused rfl (by simp) hm)
    · rw [wp_bind, wp_modifyProc, wp_pure, hproc]
      simpa using hsome p f m hunused hm hfailed

theorem wp_dupFiles {np : Slot} {l : List (Fin nOfile)} (hl : l.Nodup)
    (hempty : ∀ fd ∈ l, (s.proc np).ofile fd = none) (hF : Files s.tables 0 s)
    (hP : Pages pool X s) :
    Wp Fine (dupFiles me np l) (fun _ s' => Local np s s' ∧ Files s'.tables 0 s' ∧
      Pages pool X s' ∧ ∃ t, s'.proc np = { s.proc np with ofile := t }) s := by
  induction l generalizing s with
  | nil => exact ⟨.refl _ _, hF, hP, _, rfl⟩
  | cons fd l ih =>
    obtain ⟨hfd, hl⟩ := List.nodup_cons.mp hl
    rw [dupFiles, wp_bind, wp_get]
    cases ho : (s.proc me).ofile fd with
    | none => exact ih hl (fun i hi => hempty i (List.mem_cons_of_mem _ hi)) hF hP
    | some f =>
      have hpos : 0 < (s.file f).ref := by
        rw [hF.ref_eq f]
        exact Nat.add_pos_left (refs_pos (p := me) ho) _
      simp only [wp_bind]
      refine wp_filedup hpos ?_
      rw [wp_setOfile]
      have hloc : Local np s ((s.setFile f { s.file f with ref := (s.file f).ref + 1 }).setOfile
          np fd (some f)) :=
        (Local.of_keeps (.setFile { s.file f with ref := (s.file f).ref + 1 } fun _ => rfl)
          fun _ => id).trans (.setProc _)
      have hF' : Files ((s.setFile f { s.file f with ref := (s.file f).ref + 1 }).setOfile
          np fd (some f)).tables 0 ((s.setFile f { s.file f with ref := (s.file f).ref + 1
            }).setOfile
            np fd (some f)) := by
        rw [tables_setOfile, tables_setFile]
        exact (hF.dup.put (hempty fd (List.mem_cons_self ..))).congr rfl rfl
      have hproc : ((s.setFile f { s.file f with ref := (s.file f).ref + 1 }).setOfile np fd
          (some f)).proc np =
            { s.proc np with ofile := Function.update (s.proc np).ofile fd (some f) } := by
        simp [State.setOfile, State.setFile]
      have hP' := (hP.setFile f { s.file f with ref := (s.file f).ref + 1 }).setOfile (p := np) fd
        (some f)
      generalize (s.setFile f { s.file f with ref := (s.file f).ref + 1 }).setOfile np fd
        (some f) = s1 at hloc hF' hproc hP' ⊢
      refine (ih hl (fun i hi => ?_) hF' hP').mono ?_
      · have hi' : i ≠ fd := fun heq => hfd (heq ▸ hi)
        simpa [hproc, hi'] using hempty i (List.mem_cons_of_mem _ hi)
      · rintro _ s' ⟨hloc', hF₂, hP₂, t, ht⟩
        exact ⟨hloc.trans hloc', hF₂, hP₂, t, by rw [ht, hproc]⟩

theorem Inv.start (h : Inv pool s) {s₁ : State} {p : Slot} (hloc : Local p s s₁)
    (hfiles : Files s₁.tables 0 s₁) {f : Frame} {d : PageDir}
    (hpages : Pages pool ({f} + d.frames) s₁) (hzero : (s₁.proc p).frames = 0)
    (hlive : x.state = .live) (hkstack : x.kstack = some f) (hpgdir : x.pgdir = some d)
    (hsz : x.sz ≤ kernBase) (hsafe : d.Safe) (hofile : x.ofile = (s₁.proc p).ofile) :
    Inv pool (s₁.setProc p x) := by
  have hsound : x.Sound := fun _ => ⟨by simp [hkstack], by simp [hpgdir], hsz, fun d' hd' => by
    obtain rfl : d = d' := Option.some.inj (hpgdir.symm.trans hd')
    exact hsafe⟩
  have hframes : x.frames = {f} + d.frames := by simp [Process.frames, hlive, hkstack, hpgdir]
  refine h.of_local (hloc.trans (.setProc x)) (hpages.setProc hsound ?_) (hfiles.setProc hofile)
    ?_ ?_
  · rw [hframes, hzero, add_zero, zero_add]
  · rw [State.setProc_proc_self, hlive]
    exact fun hne => absurd rfl hne
  · simp [hlive]

/-- The child has a stack, a copy of the address space and the descriptors, or nothing is taken. -/
theorem wp_fork (hpool : InRange L pool) (h : Inv pool s) (hlive : (s.proc me).state = .live) :
    Wp Fine (fork L me) (fun r s' => Inv pool s' ∧ ∀ np, r = some np → Local np s s' ∧
      (s.proc np).state = .unused ∧ (s'.proc np).state = .live ∧
        (s'.proc np).parent = some me) s := by
  obtain ⟨f₀, src, hf₀, hsrc, hsz, -⟩ := h.pages.of_live hlive
  rw [fork, wp_bind]
  refine wp_allocproc h (fun s' hs' => ⟨hs', by simp⟩) fun np f m hnp hm _ => ?_
  have hne : me ≠ np := by
    rintro rfl
    rw [hlive] at hnp
    cases hnp
  simp only [wp_bind, wp_get, State.setProc_proc_of_ne _ hne, State.setProc_proc_self, hsrc,
    wp_onMem]
  refine ((wp_copyuvm hpool hsz hm).and (wp_copyuvm_safe hsz)).mono ?_
  rintro r m' ⟨⟨hm', -⟩, hsafe⟩
  cases r with
  | none =>
    -- the kernel stack is given back
    simp only [wp_bind, wp_onMem]
    refine (wp_kfree hpool (hm'.congr (zero_add _))).mono fun _ m'' hm'' => ?_
    rw [wp_modifyProc, wp_pure]
    refine ⟨?_, by simp⟩
    have hset := h.setUnused hnp (x := { s.proc np with
      pgdir := none, kstack := none, state := .unused }) rfl rfl hm''.1
    simpa [State.setProc] using hset
  | some d =>
    simp only [wp_bind, wp_modifyProc]
    have hempty : ∀ fd, (s.proc np).ofile fd = none := h.closed np (by simp [hnp])
    have hP : Pages pool ({f} + d.frames) { s with mem := m' } := by
      refine h.pages.setMem (hm'.congr ?_)
      rw [Option.elim_some, ← Multiset.singleton_add]
      abel
    have hproc (x y : Process) :
        ({ ({ s with mem := m } : State).setProc np x with mem := m' } : State).setProc np y =
          ({ s with mem := m' } : State).setProc np y :=
      ({ s with mem := m' } : State).setProc_setProc np x y
    rw [hproc, State.setProc_proc_self]
    obtain ⟨x, hx⟩ : ∃ x : Process, x = { s.proc np with
      state := .embryo, kstack := some f, pgdir := some d, sz := (s.proc me).sz
      parent := some me } := ⟨_, rfl⟩
    rw [← hx]
    have hframes : x.frames = 0 := by rw [hx, Process.frames]
    have hP' : Pages pool ({f} + d.frames) (({ s with mem := m' } : State).setProc np x) :=
      hP.setProc (by simp [Process.Sound, hx]) (by rw [hframes, Process.frames_unused hnp])
    have hF' := (h.files.setMem m').setProc (p := np) (x := x) (by rw [hx])
    refine (wp_dupFiles (List.nodup_finRange _) (fun fd _ => ?_) hF' hP').mono ?_
    · rw [State.setProc_proc_self, hx]
      exact hempty fd
    · rintro _ s₁ ⟨hloc, hF₁, hP₁, t, ht⟩
      rw [State.setProc_proc_self] at ht
      have hloc₁ : Local np s s₁ := ((Local.mem m').trans (.setProc x)).trans hloc
      have hzero : (s₁.proc np).frames = 0 := by rw [ht, hx, Process.frames]
      rw [wp_pure]
      refine ⟨h.start hloc₁ hF₁ hP₁ hzero rfl ?_ ?_ ?_ (hsafe d rfl) rfl, ?_⟩
      · simp [ht, hx]
      · simp [ht, hx]
      · simpa [ht, hx] using hsz
      · intro np' hnp'
        obtain rfl := Option.some.inj hnp'
        refine ⟨hloc₁.trans (.setProc _), hnp, ?_, ?_⟩
        · simp
        · simp [ht, hx]

end Fork

/-! ### Ending processes -/

section Exit

theorem wp_closeFiles (hpool : InRange L pool) {l : List (Fin nOfile)} (hF : Files s.tables 0 s)
    (hP : Pages pool X s) :
    Wp Fine (closeFiles L me l) (fun _ s' => Local me s s' ∧ Files s'.tables 0 s' ∧
      Pages pool X s' ∧ (s'.proc me).state = (s.proc me).state ∧
        ∀ fd, fd ∈ l ∨ (s.proc me).ofile fd = none → (s'.proc me).ofile fd = none) s := by
  induction l generalizing s with
  | nil => exact ⟨.refl _ _, hF, hP, rfl, by simp⟩
  | cons fd l ih =>
    rw [closeFiles, wp_bind, wp_get]
    cases ho : (s.proc me).ofile fd with
    | none =>
      refine (ih hF hP).mono ?_
      rintro _ s' ⟨hloc, hF', hP', hstate, hnone⟩
      refine ⟨hloc, hF', hP', hstate, fun i hi => hnone i ?_⟩
      rcases hi with hi | hi
      · rcases List.mem_cons.mp hi with rfl | hi
        · exact .inr ho
        · exact .inl hi
      · exact .inr hi
    | some f =>
      simp only [wp_bind]
      refine (wp_fileclose hpool me (hF.pull (p := me) ho) hP).mono ?_
      rintro _ s₁ ⟨hk, hF₁, hP₁⟩
      rw [wp_setOfile]
      have hloc : Local me s (s₁.setOfile me fd none) :=
        (Local.of_keeps hk fun g => others_update.mpr).trans (.setProc _)
      have hF₂ : Files (s₁.setOfile me fd none).tables 0 (s₁.setOfile me fd none) := by
        rw [tables_setOfile, State.tables_of_proc hk.proc]
        exact hF₁.congr rfl rfl
      refine (ih hF₂ (hP₁.setOfile fd none)).mono ?_
      rintro _ s' ⟨hloc', hF', hP', hstate, hnone⟩
      refine ⟨hloc.trans hloc', hF', hP', ?_, fun i hi => hnone i ?_⟩
      · rw [hstate, State.setOfile, State.setProc_proc_self, hk.proc]
      · rw [State.setOfile, State.setProc_proc_self, hk.proc]
        by_cases hfd : i = fd
        · subst hfd
          exact .inr (Function.update_self ..)
        · simpa [hfd] using hi

theorem State.owned_congr {s' : State} (hproc : ∀ q, (s'.proc q).frames = (s.proc q).frames)
    (hkpgdir : s'.kpgdir = s.kpgdir) (hcpu : s'.cpuStacks = s.cpuStacks)
    (hpipe : ∀ pg, pipeFrames pg (s'.pipe pg) = pipeFrames pg (s.pipe pg)) :
    s'.owned = s.owned := by
  rw [State.owned, State.owned, hkpgdir, hcpu, Finset.sum_congr rfl fun q _ => hproc q,
    Finset.sum_congr rfl fun pg _ => hpipe pg]

theorem exists_reparent_proc (s : State) (me q : Slot) :
    ∃ o, (s.reparent me).proc q = { s.proc q with parent := o } := by
  by_cases h : (s.proc q).parent = some me
  · exact ⟨some initproc, if_pos h⟩
  · exact ⟨(s.proc q).parent, if_neg h⟩

theorem Local.reparent : Local me s (s.reparent me) where
  proc q _ := by
    obtain ⟨o, ho⟩ := exists_reparent_proc s me q
    rw [ho]
    rfl
  kpgdir := rfl
  cpuStacks := rfl
  ends _ _ := rfl

/-- The descriptors are given up; stack and address space are left for `wait`. -/
theorem wp_exit (hpool : InRange L pool) (h : Inv pool s) (hlive : (s.proc me).state = .live) :
    Wp Fine (exit L me) (fun _ s' => Inv pool s' ∧ Local me s s' ∧
      (s'.proc me).state = .zombie) s := by
  rw [exit]
  split_ifs
  · exact (by decide : Fine .initExiting)
  simp only [wp_bind]
  refine (wp_closeFiles hpool h.files h.pages).mono ?_
  rintro _ s₁ ⟨hloc, hF, hP, hstate, hnone⟩
  simp only [wp_modify, wp_modifyProc]
  have hloc₂ : Local me s (s₁.reparent me) := hloc.trans .reparent
  have hP₂ : Pages pool 0 (s₁.reparent me) := by
    constructor
    · have howned : (s₁.reparent me).owned = s₁.owned := by
        refine State.owned_congr (fun q => ?_) rfl rfl fun _ => rfl
        obtain ⟨o, ho⟩ := exists_reparent_proc s₁ me q
        rw [ho]
        rfl
      rw [howned]
      exact hP.cons
    · intro q
      obtain ⟨o, ho⟩ := exists_reparent_proc s₁ me q
      rw [ho]
      exact (hP.sound q).of_eq rfl rfl rfl rfl
  have hF₂ : Files (s₁.reparent me).tables 0 (s₁.reparent me) := by
    have htables : (s₁.reparent me).tables = s₁.tables := by
      funext q
      obtain ⟨o, ho⟩ := exists_reparent_proc s₁ me q
      rw [State.tables, ho]
      rfl
    rw [htables]
    exact hF.congr rfl rfl
  obtain ⟨o, ho⟩ := exists_reparent_proc s₁ me me
  have hlive₂ : ((s₁.reparent me).proc me).state = .live := by
    rw [ho]
    exact hstate.trans hlive
  have hofile₂ : ∀ fd, ((s₁.reparent me).proc me).ofile fd = none := by
    rw [ho]
    exact fun fd => hnone fd (.inl (List.mem_finRange fd))
  generalize s₁.reparent me = s₂ at hloc₂ hP₂ hF₂ hlive₂ hofile₂ ⊢
  have hloc₃ := hloc₂.trans (.setProc { s₂.proc me with state := .zombie })
  refine ⟨h.of_local hloc₃ (hP₂.setProc ?_ ?_) (hF₂.setProc rfl) ?_ ?_, hloc₃, by simp⟩
  · exact fun _ => hP₂.sound me (.inl hlive₂)
  · simp [Process.frames, hlive₂]
  · intro _ fd
    simpa using hofile₂ fd
  · simp

/-- The stack and the address space of a child that has exited are freed. -/
theorem wp_wait (hpool : InRange L pool) (h : Inv pool s) :
    Wp Fine (wait L me) (fun r s' => Inv pool s' ∧ ∀ c, r = some c → Local c s s' ∧
      (s.proc c).parent = some me ∧ (s.proc c).state = .zombie ∧
        (s'.proc c).state = .unused) s := by
  rw [wait, wp_bind, wp_get]
  split
  · exact ⟨h, by simp⟩
  next c hc =>
  obtain ⟨hparent, hzombie⟩ : (s.proc c).parent = some me ∧ (s.proc c).state = .zombie := by
    simpa using List.find?_some hc
  obtain ⟨hk, hd, -⟩ := h.pages.sound c (.inr hzombie)
  obtain ⟨f, hf⟩ := Option.ne_none_iff_exists'.mp hk
  obtain ⟨d, hd⟩ := Option.ne_none_iff_exists'.mp hd
  have hself : (s.proc c).frames = {f} + d.frames := by simp [Process.frames, hzombie, hf, hd]
  obtain ⟨x, hx⟩ : ∃ x : Process, x =
    { s.proc c with kstack := none, pgdir := some d, parent := none, state := .unused } := ⟨_, rfl⟩
  have hunused : x.state = .unused := by rw [hx]
  have howned : s.owned = f ::ₘ (d.frames + (s.setProc c x).owned) := by
    have hset := s.owned_setProc c x
    rw [Process.frames_unused hunused, add_zero, hself] at hset
    rw [← hset, ← Multiset.singleton_add]
    abel
  have hcons : Conserved pool (f ::ₘ (d.frames + (s.setProc c x).owned)) s.mem :=
    h.pages.cons.congr (by rw [howned, add_zero])
  simp only [hf, hd, wp_bind, wp_onMem, wp_modifyProc]
  refine (wp_kfree hpool hcons).mono fun _ m hm => ?_
  refine (wp_freevm hpool hm.1).mono fun _ m' hm' => ?_
  have hproc (y : Process) : ({ ({ s with mem := m } : State).setProc c y with mem := m' } :
      State).setProc c x = ({ s with mem := m' } : State).setProc c x :=
    ({ s with mem := m' } : State).setProc_setProc c y x
  simp only [State.setProc_proc_self, wp_pure]
  rw [← hx, hproc]
  have hloc : Local c s (({ s with mem := m' } : State).setProc c x) :=
    (Local.mem m').trans (.setProc x)
  refine ⟨h.of_local hloc ⟨hm'.1.congr (add_zero _).symm,
    sound_setProc h.pages.sound (Process.sound_unused hunused)⟩
      ((h.files.setMem m').setProc (by rw [hx])) (fun _ => ?_) (by simp [hunused]), ?_⟩
  · rw [State.setProc_proc_self, hx]
    exact h.closed c (by simp [hzombie])
  · intro c' hc'
    obtain rfl := Option.some.inj hc'
    exact ⟨hloc, hparent, hzombie, by simp [hunused]⟩

end Exit

end Dave.Resource
