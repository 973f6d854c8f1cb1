import Dave.Fs.Refs

/-!
# What a process holds

A process in the middle of a call relies on the references, locks and files it holds. This file
defines the ghost of a process, which lists them, and the invariant `Base` that relates the ghosts
of all processes to the state, and shows that the operations of the inode layer keep it.

A lock that has been taken by `ilock` comes with a snapshot of the inode: as long as the lock is
held, nobody else changes the inode on the disk or its contents.
-/

namespace Dave.Fs

open Option Function

/-- What is known of an inode whose lock is held. -/
structure Snap where
  inum : ℕ
  d : Dinode
  bytes : List Byte

/-- What a process does with an open file. -/
inductive Use where
  | none
  /-- it has been allocated, but has no inode yet -/
  | opened (fd : Fin nOfile) (f : Fin nFile)
  /-- its inode is read or written -/
  | inUse (fd : Fin nOfile) (f : Fin nFile) (ip : Slot) (writable : Bool)

structure Ghost where
  active : Bool
  /-- references in local variables -/
  refs : Slot → ℕ
  /-- locks, with a snapshot if the inode has been read -/
  locks : Slot → Option (Option Snap)
  /-- the current directory, if it is not the one in the process table any more -/
  moving : Option (Option Slot)
  /-- the reference of this descriptor has been taken over -/
  closing : Option (Fin nOfile)
  use : Use
  /-- the entry in the process table, if it matters -/
  proc : Option Proc
  /-- an inode that has been allocated, until its entries `.` and `..` have been made -/
  fresh : Option Slot
  /-- the type of that inode -/
  kind : Short

/-- The ghost of a process between two calls. -/
def Ghost.idle : Ghost where
  active := false
  refs _ := 0
  locks _ := none
  moving := none
  closing := none
  use := .none
  proc := none
  fresh := none
  kind := 0

/-- What a process owns by its entry in the process table. -/
def Ghost.own (g : Ghost) (pr : Proc) : Proc :=
  { pr with
    cwd := g.moving.getD pr.cwd
    ofile := fun fd => if g.closing = some fd then none else pr.ofile fd }

variable {P : Type} {E : Panic → Prop} {s s' s'' : State P} {ip jp dp : Slot}

/-- What there is to know of an inode. -/
def State.snap (s : State P) (ip : Slot) : Snap :=
  ⟨(s.icache ip).inum, s.view.dino (s.icache ip).inum, s.view.bytes (s.icache ip).inum⟩

/-- A snapshot is up to date. -/
structure SnapOk (s : State P) (ip : Slot) (sn : Snap) : Prop where
  valid : (s.icache ip).valid = true
  inum : (s.icache ip).inum = sn.inum
  dino : s.view.dino (s.icache ip).inum = sn.d
  bytes : s.view.bytes (s.icache ip).inum = sn.bytes

/-- A process uses a file of its own. -/
def Use.Ok (s : State P) (pr : Proc) : Use → Prop
  | .none => True
  | .opened fd f => pr.ofile fd = some f ∧ (s.ftable f).type = .none ∧ (s.ftable f).ref = 1
  | .inUse fd f ip writable => pr.ofile fd = some f ∧ (s.ftable f).type = .inode ∧
    (s.ftable f).ip = ip ∧ (s.ftable f).writable = writable

/-- The process has a reference to an inode, or uses a file that has one. -/
def Ghost.Refers (g : Ghost) (ip : Slot) : Prop :=
  0 < g.refs ip ∨ ∃ fd f w, g.use = .inUse fd f ip w

/-- The ghost of a process fits the state. -/
structure LocalOk (s : State P) (p : P) (g : Ghost) : Prop where
  lock : ∀ ip, (s.icache ip).lock = some p ↔ g.locks ip ≠ none
  refers : ∀ ip, g.locks ip ≠ none → g.Refers ip
  snap : ∀ ip sn, g.locks ip = some (some sn) → SnapOk s ip sn
  use : g.use.Ok s (g.own (s.proc p))
  proc : ∀ pr, g.proc = some pr → s.proc p = pr
  live : g.active = true → (s.proc p).state = .live
  idle : g.active = false → g = .idle

/-- A step leaves alone what process `q` relies on, when it owns `pr`. -/
structure Aside (s s' : State P) (q : P) (pr : Proc) : Prop where
  proc : s'.proc q = s.proc q
  lock : ∀ ip, (s'.icache ip).lock = some q ↔ (s.icache ip).lock = some q
  inode : ∀ ip, (s.icache ip).lock = some q → (s.icache ip).valid = true →
    (s'.icache ip).valid = true ∧ (s'.icache ip).inum = (s.icache ip).inum ∧
      s'.view.dino (s.icache ip).inum = s.view.dino (s.icache ip).inum ∧
      s'.view.bytes (s.icache ip).inum = s.view.bytes (s.icache ip).inum
  file : ∀ fd f, pr.ofile fd = some f →
    (s'.ftable f).type = (s.ftable f).type ∧ (s'.ftable f).ip = (s.ftable f).ip ∧
      (s'.ftable f).writable = (s.ftable f).writable ∧
      ((s.ftable f).ref = 1 → (s.ftable f).type = .none → (s'.ftable f).ref = 1)

theorem LocalOk.aside {q : P} {g : Ghost} (h : LocalOk s q g)
    (ha : Aside s s' q (g.own (s.proc q))) :
    LocalOk s' q g where
  lock ip := (ha.lock ip).trans (h.lock ip)
  refers := h.refers
  snap ip sn hsn := by
    have hlock := (h.lock ip).mpr (by rw [hsn]; simp)
    obtain ⟨g1, g2, g3, g4⟩ := h.snap ip sn hsn
    obtain ⟨h1, h2, h3, h4⟩ := ha.inode ip hlock g1
    exact ⟨h1, h2.trans g2, by rw [h2, h3, g3], by rw [h2, h4, g4]⟩
  use := by
    have huse := h.use
    rw [ha.proc]
    match hg : g.use with
    | .none => trivial
    | .opened fd f =>
      rw [hg] at huse
      obtain ⟨h1, -, -, h4⟩ := ha.file fd f huse.1
      exact ⟨huse.1, h1.trans huse.2.1, h4 huse.2.2 huse.2.1⟩
    | .inUse fd f ip w =>
      rw [hg] at huse
      obtain ⟨h1, h2, h3, -⟩ := ha.file fd f huse.1
      exact ⟨huse.1, h1.trans huse.2.1, h2.trans huse.2.2.1, h3.trans huse.2.2.2⟩
  proc pr hpr := by
    rw [ha.proc]
    exact h.proc pr hpr
  live hactive := by
    rw [ha.proc]
    exact h.live hactive
  idle := h.idle

theorem Aside.setInode {q : P} {pr : Proc} {x : Inode P}
    (hlock : x.lock = some q ↔ (s.icache ip).lock = some q)
    (hx : (s.icache ip).lock = some q → (s.icache ip).valid = true →
      x.valid = true ∧ x.inum = (s.icache ip).inum) :
    Aside s (s.setInode ip x) q pr := by
  refine ⟨rfl, fun jp => ?_, fun jp hj hv => ?_, fun fd f _ => ⟨rfl, rfl, rfl, fun hr _ => hr⟩⟩
  · rw [State.setInode_icache]
    by_cases hji : jp = ip
    · rw [hji, update_self, hlock]
    · rw [update_of_ne hji]
  · rw [State.setInode_icache]
    by_cases hji : jp = ip
    · subst hji
      rw [update_self]
      exact ⟨(hx hj hv).1, (hx hj hv).2, rfl, rfl⟩
    · rw [update_of_ne hji]
      exact ⟨hv, rfl, rfl, rfl⟩

/-- The entries of directories are whole and name inodes of the disk. -/
def DirsOk (s : State P) : Prop :=
  ∀ i, (s.view.dino i).type = tDir → deSize ∣ (s.view.dino i).size.toNat ∧
    ∀ e ∈ s.view.dirents i, e.inum.toNat < s.sb.ninodes

theorem DirsOk.congr (h : DirsOk s) (hsb : s'.sb = s.sb) (hview : s'.view = s.view) :
    DirsOk s' := by
  unfold DirsOk
  rw [hsb, hview]
  exact h

theorem DirsOk.of_ne {i : ℕ} (h : DirsOk s) (hsb : s'.sb = s.sb)
    (hdino : ∀ j, j ≠ i → s'.view.dino j = s.view.dino j)
    (hbytes : ∀ j, j ≠ i → s'.view.bytes j = s.view.bytes j)
    (hself : (s'.view.dino i).type = tDir → deSize ∣ (s'.view.dino i).size.toNat ∧
      ∀ e ∈ s'.view.dirents i, e.inum.toNat < s.sb.ninodes) : DirsOk s' := by
  intro j hj
  by_cases hji : j = i
  · subst hji
    rw [hsb]
    exact hself hj
  · rw [hdino j hji] at hj ⊢
    rw [View.dirents_congr (hbytes j hji), hsb]
    exact h j hj

theorem mem_splice {α : Type} {old : List α} {j : ℕ} {x y : α} (h : y ∈ splice old j [x]) :
    y ∈ old ∨ y = x := by
  rw [splice, List.mem_append, List.mem_append, List.mem_singleton] at h
  rcases h with (h | h) | h
  · exact .inl (List.mem_of_mem_take h)
  · exact .inr h
  · exact .inl (List.mem_of_mem_drop h)

theorem FieldsSet.dirsOk {f : Dinode → Dinode} (h : FieldsSet ip f s s') (hd : DirsOk s)
    (ht : (f (s.icache ip).d).type = (s.view.dino (s.icache ip).inum).type) : DirsOk s' := by
  refine hd.of_ne h.touch.sb h.dino_of_ne (fun j _ => h.bytes j) fun hdir => ?_
  have hsize : (s'.view.dino (s.icache ip).inum).size.toNat =
      (s.view.dino (s.icache ip).inum).size.toNat := by
    rw [← View.length_bytes, ← View.length_bytes, h.bytes]
  have hold := hd (s.icache ip).inum (by
    rw [h.view, View.setDino_dino, update_self, ht] at hdir
    exact hdir)
  rw [hsize, View.dirents_congr (h.bytes _)]
  exact hold

theorem Entered.dirsOk {j : ℕ} {de : Dirent} (h : Entered dp s s' j de) (hd : DirsOk s)
    (hdir : (s.view.dino (s.icache dp).inum).type = tDir)
    (hde : de.inum.toNat < s.sb.ninodes) : DirsOk s' := by
  refine hd.of_ne h.touch.sb h.dino_of_ne h.bytes_of_ne fun _ => ⟨?_, fun e he => ?_⟩
  · have := h.openDir.size_dvd
    rwa [h.openDir.loaded.copy, h.touch.inum] at this
  · rw [h.dirents] at he
    rcases mem_splice he with hold | rfl
    · exact (hd _ hdir).2 e hold
    · exact hde

theorem Stored.dirsOk {new : List Byte} (h : Stored ip s s' new) (hd : DirsOk s)
    (hne : (s.view.dino (s.icache ip).inum).type ≠ tDir) : DirsOk s' := by
  refine hd.of_ne h.touch.sb h.dino_of_ne h.bytes_of_ne fun hdir => absurd ?_ hne
  rwa [h.fields] at hdir

theorem Marked.dirsOk {i : ℕ} {type : Short} (h : Marked i type s s') (hd : DirsOk s) :
    DirsOk s' := by
  refine hd.of_ne h.same.sb (fun j hj => h.dino_of_ne hj) (fun j hj => h.bytes_of_ne hj)
    fun _ => ?_
  have hsize : (s'.view.dino i).size.toNat = 0 := by
    rw [h.dino_self]
    rfl
  rw [View.dirents, hsize]
  exact ⟨dvd_zero _, fun e he => by simp at he⟩

theorem Freed.bytes_of_ne (h : Freed ip s s') (j : ℕ) (hj : j ≠ (s.icache ip).inum) :
    s'.view.bytes j = s.view.bytes j := by
  refine View.bytes_congr (by rw [h.dino_of_ne j hj]) fun n => View.blk_congr ?_ fun b _ => ?_
  · rw [View.place, View.place, h.dino_of_ne j hj, h.data]
  · rw [h.data]

theorem Freed.dirsOk (h : Freed ip s s') (hd : DirsOk s) : DirsOk s' :=
  hd.of_ne h.sb h.dino_of_ne h.bytes_of_ne fun hdir => by
    rw [h.type_eq] at hdir
    exact absurd hdir (by decide)

/-- The processes own what their entries in the process table show, less what has been taken. -/
def owned (s : State P) (gs : P → Ghost) (p : P) : Proc := (gs p).own (s.proc p)

variable [Fintype P]

/-- The references that calls in progress hold. -/
def held (gs : P → Ghost) (ip : Slot) : ℕ := ∑ p, (gs p).refs ip

/-- The ghosts of all processes fit the state. -/
structure Base (s : State P) (gs : P → Ghost) : Prop where
  store : StoreOk s
  dirs : DirsOk s
  table : TableOk s (owned s gs) (held gs)
  loc : ∀ p, LocalOk s p (gs p)
  dead : ∀ p, (s.proc p).state ≠ .live → (s.proc p).cwd = none ∧ ∀ fd, (s.proc p).ofile fd = none

theorem refs_le_held (gs : P → Ghost) (p : P) (ip : Slot) : (gs p).refs ip ≤ held gs ip :=
  Finset.single_le_sum (f := fun q => (gs q).refs ip) (fun _ _ => Nat.zero_le _) (Finset.mem_univ p)

namespace Base

variable {gs : P → Ghost} {me q : P}

variable {sn : Snap}

variable (h : Base s gs)

include h

theorem ref_pos (hr : (gs me).Refers ip) : 0 < (s.icache ip).ref := by
  rcases hr with hpos | ⟨fd, f, w, huse⟩
  · exact h.table.ref_pos_of_loc (hpos.trans_le (refs_le_held gs me ip))
  · have hok := (h.loc me).use
    rw [huse] at hok
    have := h.table.ref_pos_of_file hok.2.1
    rwa [hok.2.2.1] at this

theorem ref_pos_of_lock (hl : (s.icache ip).lock = some q) :
    0 < (s.icache ip).ref :=
  h.ref_pos ((h.loc q).refers ip (((h.loc q).lock ip).mp hl))

theorem loaded (hl : (gs me).locks ip = some (some sn)) : Loaded s ip := by
  have hlock := ((h.loc me).lock ip).mpr (by rw [hl]; simp)
  exact h.store.cache.loaded ip (h.ref_pos_of_lock hlock) ((h.loc me).snap ip sn hl).valid

theorem snap_d (hl : (gs me).locks ip = some (some sn)) :
    (s.icache ip).d = sn.d :=
  (h.loaded hl).copy.trans ((h.loc me).snap ip sn hl).dino

theorem openDir (hl : (gs me).locks ip = some (some sn)) (hdir : sn.d.type = tDir) :
    OpenDir s ip := by
  have hd := h.snap_d hl
  have hcopy := (h.loaded hl).copy
  refine ⟨h.store.disk, h.loaded hl, hd ▸ hdir, ?_⟩
  have hdirs := (h.dirs (s.icache ip).inum (by rw [← hcopy, hd]; exact hdir)).1
  rwa [← hcopy] at hdirs

theorem record (a : Action) : Base (s.record a) gs where
  store := h.store.congr rfl rfl rfl
  dirs := h.dirs.congr rfl rfl
  table := h.table.of_eq rfl rfl rfl
  loc q := (h.loc q).aside ⟨rfl, fun _ => .rfl, fun _ _ hv => ⟨hv, rfl, rfl, rfl⟩,
    fun _ _ _ => ⟨rfl, rfl, rfl, fun hr _ => hr⟩⟩
  dead := h.dead

end Base

/-! ### References -/

/-- The ghost with `n` references to `ip`. -/
@[simps -fullyApplied refs locks active]
def Ghost.setRefs (g : Ghost) (ip : Slot) (n : ℕ) : Ghost :=
  { g with refs := update g.refs ip n }

/-- The ghost with another entry for the lock of `ip`. -/
@[simps -fullyApplied refs locks active]
def Ghost.setLock (g : Ghost) (ip : Slot) (o : Option (Option Snap)) : Ghost :=
  { g with locks := update g.locks ip o }

section Update

variable [DecidableEq P] (gs : P → Ghost) (me : P)

theorem held_update (g : Ghost) (ip : Slot) :
    held (update gs me g) ip + (gs me).refs ip = held gs ip + g.refs ip := by
  have h := sum_add_eq (f := fun q => (gs q).refs ip)
    (g := fun q => (update gs me g q).refs ip) me fun b hb => by
      simp only [update_of_ne hb]
  simpa only [update_self, held] using h

variable {g : Ghost}

theorem held_setRefs {n k : ℕ} (hg : g.refs = update (gs me).refs ip n)
    (h : n + held gs ip = k + (gs me).refs ip) : held (update gs me g) = update (held gs) ip k := by
  funext jp
  have hsum := held_update gs me g jp
  rw [hg] at hsum
  by_cases hj : jp = ip
  · subst hj
    rw [update_self] at hsum ⊢
    omega
  · rw [update_of_ne hj] at hsum ⊢
    omega

theorem held_of_refs_eq (h : g.refs = (gs me).refs) : held (update gs me g) = held gs := by
  funext ip
  have hsum := held_update gs me g ip
  rw [h] at hsum
  omega

theorem held_setLock (ip : Slot) (o : Option (Option Snap)) :
    held (update gs me ((gs me).setLock ip o)) = held gs :=
  held_of_refs_eq gs me (g := (gs me).setLock ip o) rfl

omit [Fintype P] in
theorem owned_update (hproc : s'.proc = s.proc) (hg : g.own (s.proc me) = (gs me).own (s.proc me)) :
    owned s' (update gs me g) = owned s gs := by
  funext q
  rw [owned, owned, hproc]
  by_cases hq : q = me
  · rw [hq, update_self, hg]
  · rw [update_of_ne hq]

end Update

namespace Base

variable [DecidableEq P] {gs : P → Ghost} {me q : P}

theorem step (h : Base s gs) {g : Ghost} (hstore : StoreOk s') (hdirs : DirsOk s')
    (htable : TableOk s' (owned s' (update gs me g)) (held (update gs me g)))
    (hme : LocalOk s' me g) (hothers : ∀ q, q ≠ me → Aside s s' q (owned s gs q))
    (hdead : ∀ p, (s'.proc p).state ≠ .live →
      (s'.proc p).cwd = none ∧ ∀ fd, (s'.proc p).ofile fd = none) :
    Base s' (update gs me g) where
  store := hstore
  dirs := hdirs
  table := htable
  loc p := by
    by_cases hp : p = me
    · subst hp
      rw [update_self]
      exact hme
    · rw [update_of_ne hp]
      exact (h.loc p).aside (hothers p hp)
  dead := hdead

theorem step_inodes (h : Base s gs) {g : Ghost} (hproc : s'.proc = s.proc)
    (hown : g.own (s.proc me) = (gs me).own (s.proc me)) (hstore : StoreOk s') (hdirs : DirsOk s')
    (htable : TableOk s' (owned s gs) (held (update gs me g)))
    (hme : LocalOk s' me g) (hothers : ∀ q, q ≠ me → Aside s s' q (owned s gs q)) :
    Base s' (update gs me g) := by
  refine h.step hstore hdirs ?_ hme hothers (hproc ▸ h.dead)
  rwa [owned_update gs me hproc hown]

omit [DecidableEq P] in
theorem got_aside (h : Base s gs) {i : ℕ} (hg : Got s i ip s') (q : P) (pr : Proc) :
    Aside s s' q pr := by
  refine ⟨by rw [hg.proc], fun jp => by rw [hg.lock], fun jp hl hv => ?_, fun fd f _ => ?_⟩
  · have hpos := h.ref_pos_of_lock hl
    rw [hg.view]
    by_cases hj : jp = ip
    · subst hj
      rw [hg.of_ref_pos hpos]
      exact ⟨hv, rfl, rfl, rfl⟩
    · rw [hg.of_ne hj]
      exact ⟨hv, rfl, rfl, rfl⟩
  · rw [hg.ftable]
    exact ⟨rfl, rfl, rfl, fun hr _ => hr⟩

theorem got (h : Base s gs) {i : ℕ} (hi : i < s.sb.ninodes) (hact : (gs me).active = true)
    (hg : Got s i ip s') :
    Base s' (update gs me ((gs me).setRefs ip ((gs me).refs ip + 1))) := by
  have hme := (h.loc me).aside (h.got_aside hg me _)
  refine h.step_inodes hg.proc rfl (hg.storeOk h.store hi) (h.dirs.congr hg.sb hg.view) ?_ ?_
    fun q _ => h.got_aside hg q _
  · rw [held_setRefs gs me (k := held gs ip + 1) (Ghost.setRefs_refs ..) (by omega)]
    exact h.table.got hg
  · refine ⟨hme.lock, fun jp hj => ?_, hme.snap, hme.use, hme.proc, hme.live, fun hf => ?_⟩
    · rcases hme.refers jp hj with hpos | huse
      · refine .inl ?_
        by_cases hji : jp = ip
        · subst hji
          simp [Ghost.setRefs]
        · simpa [Ghost.setRefs, update_of_ne hji] using hpos
      · exact .inr huse
    · simp [Ghost.setRefs, hact] at hf

theorem drop (h : Base s gs) (hact : (gs me).active = true) (hr : 0 < (gs me).refs ip)
    (hl : (gs me).locks ip = none) :
    Base (s.setInode ip { s.icache ip with ref := (s.icache ip).ref - 1 })
      (update gs me ((gs me).setRefs ip ((gs me).refs ip - 1))) := by
  have hheld := refs_le_held gs me ip
  have hpos := h.ref_pos (.inl hr)
  have haside (q : P) (pr : Proc) :
      Aside s (s.setInode ip { s.icache ip with ref := (s.icache ip).ref - 1 }) q pr :=
    .setInode .rfl fun _ hv => ⟨hv, rfl⟩
  have hme := (h.loc me).aside (haside me _)
  refine h.step_inodes rfl rfl ?_ (h.dirs.congr rfl rfl) ?_ ?_ fun q _ => haside q _
  · refine h.store.setInode hpos rfl rfl (Nat.sub_le _ _) fun hv => ?_
    have hload := h.store.cache.loaded ip hpos hv
    exact ⟨hload.copy, hload.type_ne⟩
  · rw [held_setRefs gs me (k := held gs ip - 1) (Ghost.setRefs_refs ..) (by omega)]
    exact h.table.drop (hr.trans_le hheld)
  · refine ⟨hme.lock, fun jp hj => ?_, hme.snap, hme.use, hme.proc, hme.live, fun hf => ?_⟩
    · rcases hme.refers jp hj with hpos | huse
      · have hji : jp ≠ ip := by
          rintro rfl
          exact hj hl
        exact .inl (by simpa [Ghost.setRefs, update_of_ne hji] using hpos)
      · exact .inr huse
    · simp [Ghost.setRefs, hact] at hf

end Base

/-! ### Locks -/

omit [Fintype P] in
theorem LocalOk.setLock {me : P} {g : Ghost} {o : Option (Option Snap)} (h : LocalOk s me g)
    (hact : g.active = true) (hproc : s'.proc = s.proc) (hft : s'.ftable = s.ftable)
    (hic : ∀ jp, jp ≠ ip → s'.icache jp = s.icache jp)
    (hdino : ∀ jp, jp ≠ ip → (s.icache jp).lock = some me →
      s'.view.dino (s.icache jp).inum = s.view.dino (s.icache jp).inum ∧
      s'.view.bytes (s.icache jp).inum = s.view.bytes (s.icache jp).inum)
    (hlock : (s'.icache ip).lock = some me ↔ o ≠ none) (hrefers : o ≠ none → g.Refers ip)
    (hsnap : ∀ sn, o = some (some sn) → SnapOk s' ip sn) : LocalOk s' me (g.setLock ip o) where
  lock jp := by
    rw [Ghost.setLock_locks]
    by_cases hj : jp = ip
    · rw [hj, update_self, hlock]
    · rw [update_of_ne hj, hic jp hj]
      exact h.lock jp
  refers jp hj := by
    rw [Ghost.setLock_locks] at hj
    by_cases hji : jp = ip
    · rw [hji, update_self] at hj
      rw [hji]
      exact hrefers hj
    · rw [update_of_ne hji] at hj
      exact h.refers jp hj
  snap jp sn hj := by
    rw [Ghost.setLock_locks] at hj
    by_cases hji : jp = ip
    · rw [hji, update_self] at hj
      rw [hji]
      exact hsnap sn hj
    · rw [update_of_ne hji] at hj
      have hl := (h.lock jp).mpr (by rw [hj]; simp)
      obtain ⟨h1, h2, h3, h4⟩ := h.snap jp sn hj
      obtain ⟨h5, h6⟩ := hdino jp hji hl
      exact ⟨by rw [hic jp hji, h1], by rw [hic jp hji, h2], by rw [hic jp hji, h5, h3],
        by rw [hic jp hji, h6, h4]⟩
  use := by
    have huse := h.use
    have hown : (g.setLock ip o).own (s'.proc me) = g.own (s.proc me) := by rw [hproc]; rfl
    rw [hown]
    change g.use.Ok s' _
    unfold Use.Ok at huse ⊢
    rw [hft]
    exact huse
  proc := by
    rw [hproc]
    exact h.proc
  live := by
    rw [hproc]
    exact h.live
  idle hf := by simp [hact] at hf

namespace Base

variable [DecidableEq P] {gs : P → Ghost} {me q : P}

variable (h : Base s gs)

include h

theorem acquire (hact : (gs me).active = true) (hr : (gs me).Refers ip)
    (hfree : (s.icache ip).lock = none) :
    Base (s.setInode ip { s.icache ip with lock := some me })
      (update gs me ((gs me).setLock ip (some none))) := by
  have hpos := h.ref_pos hr
  refine h.step_inodes rfl rfl ?_ (h.dirs.congr rfl rfl) ?_ ?_ fun q hq => ?_
  · refine h.store.setInode hpos rfl rfl (Nat.le_refl _) fun hv => ?_
    have hload := h.store.cache.loaded ip hpos hv
    exact ⟨hload.copy, hload.type_ne⟩
  · rw [held_setLock]
    exact h.table.setInode rfl rfl
  · refine (h.loc me).setLock hact rfl rfl (fun jp hj => update_of_ne hj ..)
      (fun _ _ _ => ⟨rfl, rfl⟩) ?_ (fun _ => hr) (fun sn hsn => by simp at hsn)
    simp
  · refine .setInode ?_ fun hl => by simp [hfree] at hl
    simp [hfree, Ne.symm hq]

theorem release (hact : (gs me).active = true) (hl : (gs me).locks ip ≠ none) :
    Base (s.setInode ip { s.icache ip with lock := none })
      (update gs me ((gs me).setLock ip none)) := by
  have hlock := ((h.loc me).lock ip).mpr hl
  have hpos := h.ref_pos_of_lock hlock
  refine h.step_inodes rfl rfl ?_ (h.dirs.congr rfl rfl) ?_ ?_ fun q hq => ?_
  · refine h.store.setInode hpos rfl rfl (Nat.le_refl _) fun hv => ?_
    have hload := h.store.cache.loaded ip hpos hv
    exact ⟨hload.copy, hload.type_ne⟩
  · rw [held_setLock]
    exact h.table.setInode rfl rfl
  · refine (h.loc me).setLock hact rfl rfl (fun jp hj => update_of_ne hj ..)
      (fun _ _ _ => ⟨rfl, rfl⟩) ?_ (fun hne => absurd rfl hne) (fun sn hsn => by simp at hsn)
    simp
  · refine .setInode ?_ fun hl' _ => ?_
    · simp [hlock, Ne.symm hq]
    · rw [hlock] at hl'
      exact absurd (some.inj hl').symm hq

theorem fill (hact : (gs me).active = true) (hl : (gs me).locks ip = some none)
    (ht : (s.view.dino (s.icache ip).inum).type ≠ 0) :
    Base (s.setInode ip
        { s.icache ip with d := s.view.dino (s.icache ip).inum, valid := true })
      (update gs me ((gs me).setLock ip (some (some (s.snap ip))))) := by
  have hlock := ((h.loc me).lock ip).mpr (by rw [hl]; simp)
  have hpos := h.ref_pos_of_lock hlock
  refine h.step_inodes rfl rfl ?_ (h.dirs.congr rfl rfl) ?_ ?_ fun q hq => ?_
  · exact h.store.setInode hpos rfl rfl (Nat.le_refl _) fun _ => ⟨rfl, ht⟩
  · rw [held_setLock]
    exact h.table.setInode rfl rfl
  · refine (h.loc me).setLock hact rfl rfl (fun jp hj => update_of_ne hj ..)
      (fun _ _ _ => ⟨rfl, rfl⟩) ?_ (fun _ => (h.loc me).refers ip (by rw [hl]; simp))
      (fun sn hsn => ?_)
    · simp [hlock]
    · obtain rfl := some.inj (some.inj hsn)
      refine ⟨?_, ?_, ?_, ?_⟩
      all_goals
        rw [State.setInode_icache, update_self]
        try rfl
  · refine .setInode .rfl fun hl' _ => ?_
    rw [hlock] at hl'
    exact absurd (some.inj hl').symm hq

theorem change (hact : (gs me).active = true) {sn : Snap} (hl : (gs me).locks ip = some (some sn))
    (htouch : Touch ip s s') (hstore : StoreOk s') (hdirs : DirsOk s')
    (htype : (s'.view.dino (s.icache ip).inum).type = (s.view.dino (s.icache ip).inum).type)
    (hdino : ∀ j, j ≠ (s.icache ip).inum → s'.view.dino j = s.view.dino j)
    (hbytes : ∀ j, j ≠ (s.icache ip).inum → s'.view.bytes j = s.view.bytes j) :
    Base s' (update gs me ((gs me).setLock ip (some (some (s'.snap ip))))) := by
  have hlock := ((h.loc me).lock ip).mpr (by rw [hl]; simp)
  have hpos := h.ref_pos_of_lock hlock
  -- an entry with another lock stands for another inode
  have hne (jp : Slot) (hj : jp ≠ ip) (q : P) (hq : (s.icache jp).lock = some q) :
      (s.icache jp).inum ≠ (s.icache ip).inum := fun heq =>
    hj (h.store.cache.unique jp ip (h.ref_pos_of_lock hq) hpos heq)
  refine h.step_inodes htouch.proc rfl hstore hdirs ?_ ?_ fun q hq => ?_
  · rw [held_setLock]
    refine h.table.congr htouch.ftable (fun jp => ?_) (fun jp _ => ?_) fun jp _ _ => ?_
    · rw [htouch.icache]
      by_cases hj : jp = ip
      · rw [hj, update_self]
      · rw [update_of_ne hj]
    · rw [htouch.icache]
      by_cases hj : jp = ip
      · rw [hj, update_self]
      · rw [update_of_ne hj]
    · by_cases hj : (s.icache jp).inum = (s.icache ip).inum
      · rw [hj, htype]
      · rw [hdino _ hj]
  · refine (h.loc me).setLock hact htouch.proc htouch.ftable (fun jp hj => htouch.of_ne hj)
      (fun jp hj hq => ⟨hdino _ (hne jp hj me hq), hbytes _ (hne jp hj me hq)⟩) ?_
      (fun _ => (h.loc me).refers ip (by rw [hl]; simp)) (fun sn' hsn => ?_)
    · rw [htouch.self]
      simp [hlock]
    · obtain rfl := some.inj (some.inj hsn)
      refine ⟨?_, rfl, rfl, rfl⟩
      rw [htouch.self]
      exact ((h.loc me).snap ip sn hl).valid
  · refine ⟨by rw [htouch.proc], fun jp => ?_, fun jp hjq hv => ?_, fun fd f _ => ?_⟩
    · by_cases hj : jp = ip
      · rw [hj, htouch.self]
      · rw [htouch.of_ne hj]
    · have hj : jp ≠ ip := by
        rintro rfl
        rw [hlock] at hjq
        exact hq (some.inj hjq).symm
      rw [htouch.of_ne hj, hdino _ (hne jp hj q hjq), hbytes _ (hne jp hj q hjq)]
      exact ⟨hv, rfl, rfl, rfl⟩
    · rw [htouch.ftable]
      exact ⟨rfl, rfl, rfl, fun hr _ => hr⟩

omit [DecidableEq P] in
theorem mark {i : ℕ} {type : Short} (hm : Marked i type s s') : Base s' gs where
  store := hm.storeOk h.store
  dirs := hm.dirsOk h.dirs
  table := by
    have howned : owned s' gs = owned s gs := by
      funext q
      rw [owned, owned, hm.same.proc]
    rw [howned]
    refine h.table.congr hm.same.ftable (fun jp => ?_) (fun jp _ => ?_) fun jp _ hne => ?_
    · rw [hm.same.icache]
    · rw [hm.same.icache]
    · have hji : (s.icache jp).inum ≠ i := by
        rintro rfl
        exact hne hm.free
      rw [hm.dino_of_ne hji]
  loc q := by
    refine (h.loc q).aside ⟨by rw [hm.same.proc], fun jp => by rw [hm.same.icache],
      fun jp hl hv => ?_, fun fd f _ => ?_⟩
    · -- an inode that has been read is allocated
      have hload := h.store.cache.loaded jp (h.ref_pos_of_lock hl) hv
      have hji : (s.icache jp).inum ≠ i := by
        rintro rfl
        exact hload.type_ne (hload.copy ▸ hm.free)
      rw [hm.same.icache, hm.dino_of_ne hji, hm.bytes_of_ne hji]
      exact ⟨hv, rfl, rfl, rfl⟩
    · rw [hm.same.ftable]
      exact ⟨rfl, rfl, rfl, fun hr _ => hr⟩
  dead := hm.same.proc ▸ h.dead

omit [DecidableEq P] in
theorem num_ne_of_last (hr : 0 < (gs me).refs ip) (hone : (s.icache ip).ref = 1) (hq : q ≠ me)
    (hj : 0 < (gs q).refs jp) : (s.icache jp).inum ≠ (s.icache ip).inum := by
  intro heq
  obtain rfl := h.store.cache.unique jp ip (h.ref_pos (.inl hj)) (h.ref_pos (.inl hr)) heq
  have htwo : (gs me).refs jp + (gs q).refs jp ≤ held gs jp :=
    Finset.add_le_sum (f := fun p => (gs p).refs jp) (fun _ _ => Nat.zero_le _)
      (Finset.mem_univ me) (Finset.mem_univ q) (Ne.symm hq)
  have hsum := h.table.refs jp
  omega

theorem freed (hact : (gs me).active = true) (hl : (gs me).locks ip = some none)
    (hr : 0 < (gs me).refs ip) (hlast : LastPut s ip) (hf : Freed ip s s') : Base s' gs := by
  have hlock := ((h.loc me).lock ip).mpr (by rw [hl]; simp)
  have hpos := h.ref_pos_of_lock hlock
  have hic (jp : Slot) (hj : jp ≠ ip) : s'.icache jp = s.icache jp := by
    rw [hf.icache, update_of_ne hj]
  have hself : s'.icache ip = { s.icache ip with d := (s'.icache ip).d, valid := false } := by
    have := congrFun hf.icache ip
    rwa [update_self] at this
  have hne (jp : Slot) (hj : jp ≠ ip) (q : P) (hq : (s.icache jp).lock = some q) :
      (s.icache jp).inum ≠ (s.icache ip).inum := fun heq =>
    hj (h.store.cache.unique jp ip (h.ref_pos_of_lock hq) hpos heq)
  have hsame : (gs me).setLock ip (some none) = gs me := by
    rw [Ghost.setLock, ← hl, update_eq_self]
  suffices hbase : Base s' (update gs me ((gs me).setLock ip (some none))) by
    rwa [hsame, update_eq_self] at hbase
  refine h.step_inodes hf.proc rfl (hf.storeOk h.store hpos) (hf.dirsOk h.dirs) ?_ ?_
    fun q hq => ?_
  · rw [held_setLock]
    exact h.table.freed h.store.cache hf hlast.2.2 (hr.trans_le (refs_le_held gs me ip))
  · refine (h.loc me).setLock hact hf.proc hf.ftable hic (fun jp hj hq =>
      ⟨hf.dino_of_ne _ (hne jp hj me hq), hf.bytes_of_ne _ (hne jp hj me hq)⟩) ?_
      (fun _ => .inl hr) (fun sn hsn => by simp at hsn)
    rw [hself]
    simp [hlock]
  · refine ⟨by rw [hf.proc], fun jp => ?_, fun jp hjq hv => ?_, fun fd f _ => ?_⟩
    · by_cases hj : jp = ip
      · rw [hj, hself]
      · rw [hic jp hj]
    · have hj : jp ≠ ip := by
        rintro rfl
        rw [hlock] at hjq
        exact hq (some.inj hjq).symm
      rw [hic jp hj, hf.dino_of_ne _ (hne jp hj q hjq), hf.bytes_of_ne _ (hne jp hj q hjq)]
      exact ⟨hv, rfl, rfl, rfl⟩
    · rw [hf.ftable]
      exact ⟨rfl, rfl, rfl, fun hr _ => hr⟩

end Base

end Dave.Fs
