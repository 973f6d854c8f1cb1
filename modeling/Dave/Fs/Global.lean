import Dave.Fs.Evolve
import Dave.Lib.Interleave

/-!
# The invariant of all processes

The logic of `Dave.Lib.Interleave` for the kernel. The invariant is that the ghosts of the processes
fit the state, and that the directories have evolved from what they were in an earlier state. If new
directories are empty when `create` locks them, it also says that directories begin with the entries
`.` and `..`.

## Main definitions

* `Global`: the invariant; `kernelLogic` is the logic with this invariant, and `KTriple` are its
  triples.

## Main results

* `ilock_triple`, `iunlock_quiet`, `iput_triple`, `iunlockput_quiet`: the operations on inodes.
-/

namespace Dave.Fs

open Function Interleave

variable {P : Type} {s s' : State P} {ip jp dp : Slot} {g g₀ : Ghost}

/-! ### Ghosts -/

namespace Ghost

/-- The ghost with one more reference. -/
def take (g : Ghost) (ip : Slot) : Ghost := g.setRefs ip (g.refs ip + 1)

/-- The ghost with one reference less. -/
def drop (g : Ghost) (ip : Slot) : Ghost := g.setRefs ip (g.refs ip - 1)

/-- The process is not making an inode. -/
structure Quiet (g : Ghost) : Prop where
  fresh : g.fresh = none
  kind : g.kind = 0

/-- The ghost without the inode that is being made. -/
def quiet (g : Ghost) : Ghost := { g with fresh := none, kind := 0 }

theorem quiet_quiet (g : Ghost) : g.quiet.Quiet := ⟨rfl, rfl⟩

theorem Quiet.quiet_eq (h : g.Quiet) : g.quiet = g := by
  obtain ⟨hfresh, hkind⟩ := h
  cases g
  simp only at hfresh hkind
  subst hfresh hkind
  rfl

theorem exists_of_quiet_eq (h : g.quiet = g₀.quiet) :
    ∃ r k, g = { g₀ with fresh := r, kind := k } := by
  refine ⟨g.fresh, g.kind, ?_⟩
  cases g
  cases g₀
  simp only [Ghost.quiet, Ghost.mk.injEq] at h ⊢
  simp only [h, and_self]

theorem Quiet.take (h : g.Quiet) (ip : Slot) : (g.take ip).Quiet :=
  ⟨h.fresh, h.kind⟩

theorem Quiet.drop (h : g.Quiet) (ip : Slot) : (g.drop ip).Quiet :=
  ⟨h.fresh, h.kind⟩

theorem Quiet.setLock (h : g.Quiet) (ip : Slot) (o : Option (Option Snap)) :
    (g.setLock ip o).Quiet := ⟨h.fresh, h.kind⟩

theorem setLock_setLock (g : Ghost) (ip : Slot) (o o' : Option (Option Snap)) :
    (g.setLock ip o).setLock ip o' = g.setLock ip o' := by
  simp [Ghost.setLock]

theorem setLock_of_eq {o : Option (Option Snap)} (h : g.locks ip = o) : g.setLock ip o = g := by
  rw [Ghost.setLock, ← h, update_eq_self]

theorem drop_take (g : Ghost) (ip : Slot) : (g.take ip).drop ip = g := by
  simp [Ghost.take, Ghost.drop, Ghost.setRefs]

theorem take_drop (h : 0 < g.refs ip) : (g.drop ip).take ip = g := by
  simp only [Ghost.take, Ghost.drop, Ghost.setRefs, update_self, update_idem]
  rw [Nat.sub_add_cancel h, update_eq_self]

theorem take_refs_pos (g : Ghost) (ip : Slot) : 0 < (g.take ip).refs ip := by
  simp [Ghost.take]

theorem take_refs_mono (hr : 0 < g.refs jp) (ip : Slot) : 0 < (g.take ip).refs jp := by
  rw [Ghost.take, Ghost.setRefs_refs]
  by_cases hj : jp = ip
  · rw [hj, update_self]
    exact Nat.succ_pos _
  · rwa [update_of_ne hj]

/-- The ghost `g` is about the same new inode as `g₀`. -/
structure Bears (g g₀ : Ghost) : Prop where
  fresh : g.fresh = g₀.fresh
  kind : g.kind = g₀.kind
  refs : ∀ ip, g.fresh = some ip → 0 < g₀.refs ip → 0 < g.refs ip

theorem Bears.of_none (h : g.fresh = none) (h₀ : g₀.fresh = none) (hkind : g.kind = g₀.kind) :
    g.Bears g₀ := ⟨h.trans h₀.symm, hkind, fun ip hf => by simp [h] at hf⟩

theorem Quiet.bears (h : g.Quiet) (h₀ : g₀.Quiet) : g.Bears g₀ :=
  .of_none h.fresh h₀.fresh (h.kind.trans h₀.kind.symm)

theorem Bears.setLock (g : Ghost) (ip : Slot) (o : Option (Option Snap)) :
    (g.setLock ip o).Bears g :=
  ⟨rfl, rfl, fun _ _ => id⟩

end Ghost

/-! ### The logic -/

variable [DecidableEq P] [Fintype P]

/-- What the invariant is to say. -/
structure Scope where
  sb : Superblock
  /-- directories begin with the entries `.` and `..` -/
  dots : Bool

/-- What the directories were in an earlier state. -/
abbrev History : Type := ℕ → Short × List Dirent

/-- Directories begin with the entries `.` and `..`, except those that a process is making. -/
structure Dotted (s : State P) (gs : P → Ghost) : Prop where
  zero : (s.view.dino 0).type = 0
  dir : ∀ i, (s.view.dino i).type = tDir →
    HasDots i (s.view.dirents i) ∨ ∃ p ip, (gs p).fresh = some ip ∧ s.num ip = i

/-- The ghosts fit the state, with what `κ` asks for, and the directories have evolved from what
they were. -/
structure Global (κ : Scope) (old : History) (s : State P) (gs : P → Ghost) : Prop where
  sb_eq : s.sb = κ.sb
  base : Base s gs
  made : ∀ p ip, (gs p).fresh = some ip →
    0 < (gs p).refs ip ∧ s.typ ip = (gs p).kind ∧ (gs p).kind ≠ 0
  dotted : κ.dots = true → Dotted s gs
  past : ∀ i, Relation.ReflTransGen DirStep (old i) (s.dir i)

variable (P) in
/-- The logic of the kernel. If the entries `.` and `..` are part of the invariant, the inode that
`create` has allocated for a directory is assumed to be empty when it is locked. -/
def kernelLogic (κ : Scope) : Logic (State P) Panic Slot Site P Ghost History ℤ where
  G := Global κ
  Idle g := g = .idle
  Res _ _ := True
  Label g o := ∀ l t, o = some (l, t) → g.Refers l
  Ok s _ _ l t := κ.dots = true → t = .createNew → s.typ l = tDir →
    (s.view.dino (s.num l)).size = 0
  E e := e ≠ .freeingFreeBlock

variable {κ : Scope}

omit [DecidableEq P] in
theorem label_some {t : Site} (hr : g.Refers ip) :
    (kernelLogic P κ).Label g (some (ip, t)) := by
  intro l t' h
  obtain ⟨rfl, -⟩ := Prod.mk.inj (Option.some.inj h)
  exact hr

omit [DecidableEq P] in
theorem label_none : (kernelLogic P κ).Label g none := fun _ _ h => by simp at h

theorem Base.relabel {gs : P → Ghost} {me : P} (h : Base s gs) (hact : (gs me).active = true)
    (hg : g.quiet = (gs me).quiet) : Base s (update gs me g) := by
  have hl := h.loc me
  obtain ⟨r, k, rfl⟩ := Ghost.exists_of_quiet_eq hg
  exact h.ghost hact rfl rfl (hl.live hact) rfl hl.refers hl.use hl.proc

namespace Global

variable {κ : Scope} {old : History} {gs : P → Ghost} {me : P}

variable (h : Global κ old s gs)

include h

omit [DecidableEq P] in
theorem num_pos {p : P} (hf : (gs p).fresh = some ip) :
    0 < (s.icache ip).ref := h.base.ref_pos (.inl (h.made p ip hf).1)

theorem made_step (htype : ∀ p ip, (gs p).fresh = some ip → s'.typ ip = s.typ ip)
    (hb : g.Bears (gs me)) (p : P) (ip : Slot) (hf : (update gs me g p).fresh = some ip) :
    0 < (update gs me g p).refs ip ∧ s'.typ ip = (update gs me g p).kind ∧
      (update gs me g p).kind ≠ 0 := by
  by_cases hp : p = me
  · subst hp
    rw [update_self] at hf ⊢
    obtain ⟨hrefs, htyp, hkind⟩ := h.made p ip (hb.fresh ▸ hf)
    rw [htype p ip (hb.fresh ▸ hf), hb.kind]
    exact ⟨hb.refs ip hf hrefs, htyp, hkind⟩
  · rw [update_of_ne hp] at hf ⊢
    rw [htype p ip hf]
    exact h.made p ip hf

theorem dotted_step (hnum : ∀ ip, 0 < (s.icache ip).ref → s'.num ip = s.num ip)
    (hzero : (s.view.dino 0).type = 0 → (s'.view.dino 0).type = 0)
    (hdir : ∀ i, (s'.view.dino i).type = tDir → (s.view.dino i).type = tDir ∧
      (HasDots i (s.view.dirents i) → HasDots i (s'.view.dirents i))) (hb : g.Bears (gs me))
    (hdots : κ.dots = true) : Dotted s' (update gs me g) := by
  obtain ⟨hz, hd⟩ := h.dotted hdots
  refine ⟨hzero hz, fun i hi => ?_⟩
  obtain ⟨hi', hkeep⟩ := hdir i hi
  refine (hd i hi').imp hkeep ?_
  rintro ⟨p, ip, hf, rfl⟩
  refine ⟨p, ip, ?_, hnum ip (h.num_pos hf)⟩
  by_cases hp : p = me
  · subst hp
    rw [update_self, hb.fresh, hf]
  · rw [update_of_ne hp, hf]

theorem same (hsb : s'.sb = s.sb) (hbase : Base s' (update gs me g))
    (htype : ∀ x, (s'.view.dino x).type = (s.view.dino x).type)
    (hdirents : ∀ x, s'.view.dirents x = s.view.dirents x)
    (hnum : ∀ ip, 0 < (s.icache ip).ref → s'.num ip = s.num ip)
    (hb : g.Bears (gs me)) : Global κ old s' (update gs me g) where
  sb_eq := hsb.trans h.sb_eq
  base := hbase
  made := h.made_step (fun p ip hf => by rw [State.typ, hnum ip (h.num_pos hf), htype]) hb
  dotted := h.dotted_step hnum (fun h0 => by rw [htype, h0])
    (fun i hi => by rw [hdirents, ← htype]; exact ⟨hi, id⟩) hb
  past i := by
    rw [State.dir, htype, hdirents]
    exact h.past i

theorem of_view (hsb : s'.sb = s.sb) (hbase : Base s' (update gs me g)) (hview : s'.view = s.view)
    (hnum : ∀ ip, 0 < (s.icache ip).ref → s'.num ip = s.num ip)
    (hb : g.Bears (gs me)) : Global κ old s' (update gs me g) :=
  h.same hsb hbase (fun _ => by rw [hview]) (fun _ => by rw [hview]) hnum hb

theorem setInode {x : Inode P} (hbase : Base (s.setInode ip x) (update gs me g))
    (hx : x.inum = (s.icache ip).inum) (hb : g.Bears (gs me)) :
    Global κ old (s.setInode ip x) (update gs me g) := by
  refine h.of_view rfl hbase rfl (fun jp _ => ?_) hb
  rw [State.num, State.setInode_icache]
  by_cases hj : jp = ip
  · rw [hj, update_self, hx]
  · rw [update_of_ne hj]

omit [DecidableEq P] in
theorem record (a : Action) : Global κ old (s.record a) gs where
  sb_eq := h.sb_eq
  base := h.base.record a
  made := h.made
  dotted hdots := ⟨(h.dotted hdots).zero, (h.dotted hdots).dir⟩
  past := h.past

theorem settle (hact : (gs me).active = true) (hg : g.quiet = (gs me).quiet)
    (hfresh : g.fresh = none)
    (hdots : κ.dots = true → ∀ ip, (gs me).fresh = some ip → s.typ ip = tDir →
      HasDots (s.num ip) (s.view.dirents (s.num ip))) : Global κ old s (update gs me g) where
  sb_eq := h.sb_eq
  base := h.base.relabel hact hg
  made p ip hf := by
    by_cases hp : p = me
    · rw [hp, update_self, hfresh] at hf
      cases hf
    · rw [update_of_ne hp] at hf ⊢
      exact h.made p ip hf
  dotted hd := by
    refine ⟨(h.dotted hd).zero, fun i hi => ?_⟩
    rcases (h.dotted hd).dir i hi with hdir | ⟨p, ip, hf, rfl⟩
    · exact .inl hdir
    · by_cases hp : p = me
      · subst hp
        exact .inl (hdots hd ip hf hi)
      · exact .inr ⟨p, ip, by rwa [update_of_ne hp], rfl⟩
  past := h.past

variable (hg : gs me = g)

include hg

theorem quiet (hact : g.active = true) (hfresh : κ.dots = true → g.fresh = none) :
    Global κ old s (update gs me g.quiet) := by
  subst hg
  exact h.settle hact rfl rfl fun hd ip hf => by simp [hfresh hd] at hf

theorem acquire (hact : g.active = true) (hr : g.Refers ip) (hfree : (s.icache ip).lock = none) :
    Global κ old (s.setInode ip { s.icache ip with lock := some me })
      (update gs me (g.setLock ip (some none))) := by
  subst hg
  exact h.setInode (h.base.acquire hact hr hfree) rfl (.setLock _ _ _)

theorem freed (hact : g.active = true) (hl : g.locks ip = some none) (hr : 0 < g.refs ip)
    (hquiet : g.Quiet) (hlast : LastPut s ip) (hf : Freed ip s s') :
    Global κ old s' gs where
  sb_eq := hf.sb.trans h.sb_eq
  base := h.base.freed (hg ▸ hact) (hg ▸ hl) (hg ▸ hr) hlast hf
  made p jp hfresh := by
    have hp : p ≠ me := by
      rintro rfl
      rw [hg, hquiet.fresh] at hfresh
      cases hfresh
    obtain ⟨hrefs, htyp, hkind⟩ := h.made p jp hfresh
    have hne := h.base.num_ne_of_last (hg ▸ hr) hlast.2.2 hp hrefs
    refine ⟨hrefs, ?_, hkind⟩
    rw [State.typ, State.num, hf.num, hf.dino_of_ne _ hne]
    exact htyp
  dotted hdots := by
    obtain ⟨hzero, hdir⟩ := h.dotted hdots
    have hne {x : ℕ} (hx : (s'.view.dino x).type ≠ 0) : x ≠ s.num ip := by
      rintro rfl
      exact hx hf.type_eq
    refine ⟨?_, fun i hi => ?_⟩
    · by_contra h0
      rw [hf.dino_of_ne 0 (hne h0)] at h0
      exact h0 hzero
    · have hi' : (s'.view.dino i).type ≠ 0 := by rw [hi]; decide
      rw [hf.dino_of_ne i (hne hi')] at hi
      rw [View.dirents_congr (hf.bytes_of_ne i (hne hi'))]
      refine (hdir i hi).imp id ?_
      rintro ⟨p, jp, hfresh, rfl⟩
      exact ⟨p, jp, hfresh, hf.num jp⟩
  past i := by
    refine (h.past i).trans ?_
    by_cases hi : i = s.num ip
    · subst hi
      have hdir : s'.dir (s.num ip) = (0, s'.view.dirents (s.num ip)) :=
        Prod.ext hf.type_eq rfl
      rw [hdir]
      exact .single (.free _ _ _)
    · rw [State.dir_congr (by rw [hf.dino_of_ne i hi]) (hf.bytes_of_ne i hi)]

theorem release (hact : g.active = true) (hl : g.locks ip ≠ none) :
    Global κ old (s.setInode ip { s.icache ip with lock := none })
      (update gs me (g.setLock ip none)) := by
  subst hg
  exact h.setInode (h.base.release hact hl) rfl (.setLock _ _ _)

theorem got {i : ℕ} (hi : i < s.sb.ninodes) (hact : g.active = true)
    (hgot : Got s i ip s') : Global κ old s' (update gs me (g.take ip)) := by
  subst hg
  refine h.of_view hgot.sb (h.base.got hi hact hgot) hgot.view (fun jp hj => ?_)
    ⟨rfl, rfl, fun jp _ hj => Ghost.take_refs_mono hj ip⟩
  by_cases hji : jp = ip
  · subst hji
    rw [State.num, hgot.of_ref_pos hj]
  · rw [State.num, hgot.of_ne hji]

theorem drop (hact : g.active = true) (hr : 0 < g.refs ip) (hl : g.locks ip = none)
    (hquiet : g.Quiet) :
    Global κ old (s.setInode ip { s.icache ip with ref := (s.icache ip).ref - 1 })
      (update gs me (g.drop ip)) := by
  subst hg
  exact h.setInode (h.base.drop hact hr hl) rfl ((hquiet.drop ip).bears hquiet)

end Global

/-! ### Locking -/

omit [DecidableEq P] [Fintype P] in
theorem State.snap_setInode {x : Inode P} (hx : x.inum = (s.icache ip).inum) :
    (s.setInode ip x).snap ip = s.snap ip := by
  rw [State.snap, State.snap, State.setInode_icache, update_self, hx, view_setInode]

theorem Base.lockRead {gs : P → Ghost} {me : P} (h : Base s gs) (hact : (gs me).active = true)
    (hr : (gs me).Refers ip) (hfree : (s.icache ip).lock = none) (ht : s.typ ip ≠ 0) :
    Base (s.lockRead ip me)
      (update gs me ((gs me).setLock ip (some (some (s.snap ip))))) := by
  have hlocks : (update gs me ((gs me).setLock ip (some none)) me).locks ip = some none := by simp
  have hfill := (h.acquire hact hr hfree).fill (by simp [hact]) hlocks (by
    rw [State.setInode_icache, update_self]
    exact ht)
  rw [update_self, update_idem, Ghost.setLock_setLock, State.setInode_setInode,
    State.setInode_icache, update_self, view_setInode, State.snap_setInode] at hfill
  · exact hfill
  · rfl

section Triples

variable {κ : Scope} {me : P} {site : Site} {Q : Unit → Ghost → Prop}

/-- A statement about a program of process `me` that begins with the ghost `g`. -/
abbrev KTriple {α : Type} (κ : Scope) (me : P) (g : Ghost) (prog : Kernel P α)
    (Q : α → Ghost → Prop) : Prop := (kernelLogic P κ).Triple me g prog Q

/-- The process waits, and then relies on what it finds in the inode. -/
theorem ilock_triple (hact : g.active = true) (hr : g.Refers ip) :
    KTriple κ me g (ilock ip site) (fun _ g' => g.locks ip = none ∧ ∃ sn, sn.d.type ≠ 0 ∧
      (g.fresh = some ip → sn.d.type = g.kind) ∧
      (κ.dots = true → site = .createNew → sn.d.type = tDir → sn.bytes = []) ∧
      g' = g.setLock ip (some (some sn))) := by
  intro old s gs hG
  rw [ilock, Logic.cwp_bind, Logic.cwp_lift]
  simp only [wp_bind, wp_get]
  split_ifs
  · exact Panic.noConfusion
  refine ⟨g, label_some hr, hG, fun old' s' gs' hG' hg hfree hok => ?_⟩
  have hG'' : Global κ old' s' gs' := hG'
  change (kernelLogic P κ).Cwp me (.lift (fill ip)) _ _ _ _
  rw [Logic.cwp_lift]
  have hr' : (gs' me).Refers ip := hg ▸ hr
  refine (fill_locked hG''.base.store (hG''.base.ref_pos hr') me fun _ => Panic.noConfusion).mono
    fun _ s'' hs'' => ?_
  obtain ⟨rfl, ht⟩ := hs''
  subst hg
  refine ⟨_, ⟨?_, s'.snap ip, ht, fun hfresh => (hG''.made me ip hfresh).2.1,
    fun hdots hsite hdir => ?_, rfl⟩, ?_⟩
  · by_contra hl
    exact absurd ((((hG''.base.loc me).lock ip).mpr hl).symm.trans hfree) (by simp)
  · refine List.eq_nil_of_length_eq_zero ?_
    rw [State.snap, View.length_bytes, hok hdots hsite hdir]
    rfl
  · exact hG''.setInode (hG''.base.lockRead hact hr' hfree ht) rfl (.setLock _ _ _)

theorem iunlock_triple
    (h : ∀ {old : History} s gs, Global κ old s gs → gs me = g →
      ∃ g', Q () g' ∧ Global κ old (s.setInode ip { s.icache ip with lock := none })
        (update gs me g')) : KTriple κ me g (iunlock me ip) Q := by
  refine Logic.Triple.bind (Q := fun _ g' => g' = g) (.lift fun s gs hG hg => ?_) ?_
  · simp only [wp_bind, wp_get]
    split_ifs
    · exact Panic.noConfusion
    · exact ⟨g, rfl, by rwa [← hg, update_eq_self]⟩
  · rintro _ _ rfl
    exact .rel label_none h

variable (hact : g.active = true)

include hact

theorem iunlock_quiet (hfresh : κ.dots = true → g.fresh = none) (hl : g.locks ip ≠ none) :
    KTriple κ me g (iunlock me ip) (fun _ g' => g' = g.quiet.setLock ip none) := by
  refine iunlock_triple fun s gs hG hg => ⟨_, rfl, ?_⟩
  have hquiet := (hG.quiet hg hact hfresh).release (update_self me _ gs) hact hl
  rwa [update_idem] at hquiet

/-- A reference is dropped. A process that holds the lock would wait for itself. -/
theorem iput_triple (hfresh : κ.dots = true → g.fresh = none) (hr : 0 < g.refs ip) :
    KTriple κ me g (iput ip) (fun _ g' => g' = g.quiet.drop ip ∧ g.locks ip = none) := by
  have hquiet := g.quiet_quiet
  have hlabel {t : Site} := label_some (P := P) (κ := κ) (t := t) (.inl hr)
  refine .seq g (.lift fun s gs hG hg => ⟨g, rfl, ?_⟩) fun _ => ?_
  · rw [← hg, update_eq_self]
    exact hG.record _
  by_cases hl : g.locks ip = none
  · refine .seq (g.quiet.setLock ip (some none))
      (.acq g hlabel (fun s gs hG hg => ?_) fun s gs hG hg hfree _ => ⟨_, rfl, ?_⟩) fun _ => ?_
    · rwa [← hg, update_eq_self]
    · have hacq := (Global.quiet hG hg hact hfresh).acquire (update_self me _ gs) hact
        (.inl hr) hfree
      rwa [update_idem] at hacq
    refine .seq (g.quiet.setLock ip (some none)) (.lift fun s gs hG hg => ?_) fun _ => ?_
    · have hbase := Global.base hG
      have hrefers : (gs me).Refers ip := .inl (by rw [hg]; exact hr)
      have hpos := hbase.ref_pos hrefers
      refine (iputFree_spec hbase.store.disk (hbase.store.cache.loaded ip hpos)).mono
        fun _ s' hs' => ⟨_, rfl, ?_⟩
      rw [← hg, update_eq_self]
      split_ifs at hs' with hlast
      · exact Global.freed hG hg hact (update_self ..) hr (hquiet.setLock ip _) hlast hs'
      · rwa [hs']
    refine .seq g.quiet (.rel label_none fun s gs hG hg => ⟨_, rfl, ?_⟩) fun _ => ?_
    · have hlock : (g.quiet.setLock ip (some none)).locks ip ≠ none := by simp
      have hrel := Global.release hG hg hact hlock
      rwa [Ghost.setLock_setLock, Ghost.setLock_of_eq (g := g.quiet) hl] at hrel
    refine .seq g.quiet (.yield label_none rfl) fun _ => ?_
    refine .lift fun s gs hG hg => ?_
    exact ⟨_, ⟨rfl, hl⟩, Global.drop hG hg hact hr hl hquiet⟩
  · -- the process waits for itself
    refine .bind (Q := fun _ _ => False) (.acq g hlabel (fun s gs hG hg => ?_)
      fun s gs hG hg hfree _ => ?_) fun _ _ => False.elim
    · rwa [← hg, update_eq_self]
    · have := ((Global.base hG).loc me).lock ip |>.mpr (by rwa [hg])
      exact absurd (this.symm.trans hfree) (by simp)

theorem iunlockput_quiet (hfresh : κ.dots = true → g.fresh = none) (hl : g.locks ip ≠ none)
    (hr : 0 < g.refs ip) :
    KTriple κ me g (iunlockput me ip) (fun _ g' => g' = (g.quiet.setLock ip none).drop ip) := by
  refine .seq _ (iunlock_quiet hact hfresh hl) fun _ => ?_
  exact (iput_triple (g := g.quiet.setLock ip none) hact (fun _ => rfl) hr).mono
    fun _ _ hg => hg.1

end Triples

end Dave.Fs
