import Dave.Fs.Logged

/-!
# Making files

`create` by a process that runs alone in a tree of directories: it finds a file, or allocates an
inode, gives it its fields and, if it is a directory, its first two entries, and enters it in the
directory that the path leads to.
-/

namespace Dave.Fs

open Option Function Prog

variable {P : Type} {s s' s'' : State P} {me : P} {ip dp : Slot} {i d : ℕ} {name : Str}

/-! ### Inodes that a path leads to -/

theorem Quiescent.record (hq : Quiescent s me) (a : Action) : Quiescent (s.record a) me where
  store := hq.store.congr rfl rfl rfl
  lock := hq.lock
  cwd := hq.cwd
  root := hq.root
  size_dvd := hq.size_dvd
  entry := hq.entry

namespace View

variable {v v' : View} {i : ℕ} {es : List Str}

theorem step_eq (i : ℕ) (name : Str) :
    v.step i name = if (v.dino i).type = tDir then bound (v.dirents i) name else none := by
  rw [step, map_lookupFrom]

theorem resolve_mono (h : ∀ j name k, v.step j name = some k → v'.step j name = some k) {k : ℕ}
    (hr : v.resolve i es = some k) : v'.resolve i es = some k := by
  induction es generalizing i with
  | nil => exact hr
  | cons name es ih =>
    rw [resolve_cons] at hr ⊢
    obtain ⟨j, hj, hr⟩ := bind_eq_some_iff.mp hr
    rw [h i name j hj, bind_some]
    exact ih hr

theorem parent_eq_some_iff : v.parent i es = some (d, name) ↔
      es.getLast? = some name ∧ v.resolve i es.dropLast = some d ∧ (v.dino d).type = tDir := by
  simp only [parent, bind_eq_some_iff, map_eq_some_iff, filter_eq_some_iff]
  constructor
  · rintro ⟨n, hn, d', ⟨hd, ht⟩, heq⟩
    obtain ⟨rfl, rfl⟩ := Prod.mk.inj heq
    exact ⟨hn, hd, by simpa using ht⟩
  · rintro ⟨hn, hd, ht⟩
    exact ⟨name, hn, d, ⟨hd, by simpa using ht⟩, rfl⟩

end View

theorem Quiescent.named_start (hq : Quiescent s me) (path : Str) : Named s (s.start me path) := by
  rw [State.start]
  split_ifs
  · exact hq.root
  · obtain ⟨c, hc, hpos, ht⟩ := hq.cwd
    rw [hc]
    exact ⟨hq.store.cache.inum_lt c hpos, ht, .inr ⟨c, hpos, rfl⟩⟩

theorem Quiescent.named_step (hq : Quiescent s me) {j : ℕ} (h : s.view.step i name = some j) :
    Named s j := by
  rw [View.step] at h
  split_ifs at h with hdir
  obtain ⟨q, hq', rfl⟩ := map_eq_some_iff.mp h
  exact hq.of_lookup hdir hq'

theorem Quiescent.named_resolve (hq : Quiescent s me) {es : List Str} {j : ℕ} (hi : Named s i)
    (h : s.view.resolve i es = some j) : Named s j := by
  induction es generalizing i with
  | nil => exact some.inj h ▸ hi
  | cons name es ih =>
    rw [View.resolve_cons] at h
    obtain ⟨k, hk, h⟩ := bind_eq_some_iff.mp h
    exact ih (hq.named_step hk) h

variable {path : Str}

theorem Quiescent.named_parent (hq : Quiescent s me)
    (h : s.view.parent (s.start me path) (components path) = some (d, name)) : Named s d := by
  obtain ⟨last, -, h⟩ := bind_eq_some_iff.mp h
  obtain ⟨d', hd', heq⟩ := map_eq_some_iff.mp h
  obtain ⟨rfl, -⟩ := Prod.mk.inj heq
  exact hq.named_resolve (hq.named_start path) (filter_eq_some_iff.mp hd').1

/-! ### Entries of locked directories -/

theorem DirAt.congr (h : DirAt s dp d) (hic : s'.icache dp = s.icache dp) (hsb : s'.sb = s.sb)
    (hdisk : DiskOk s') (hdino : s'.view.dino d = s.view.dino d) : DirAt s' dp d := by
  have hcopy := h.loaded.copy
  rw [h.inum_eq] at hcopy
  exact
    { disk := hdisk
      loaded := ⟨by rw [hic, hsb]; exact h.loaded.inum_lt,
        by rw [hic, h.inum_eq, hdino, hcopy], by rw [hic]; exact h.loaded.type_ne⟩
      type_eq := by rw [hic]; exact h.type_eq
      size_dvd := by rw [hic]; exact h.size_dvd
      inum_eq := by rw [hic]; exact h.inum_eq
      dev_eq := by rw [hic]; exact h.dev_eq }

theorem DirAt.of_touch (h : DirAt s dp d) (ht : Touch ip s s') (hne : dp ≠ ip) (hdisk : DiskOk s')
    (hdino : s'.view.dino d = s.view.dino d) : DirAt s' dp d :=
  h.congr (ht.of_ne hne) ht.sb hdisk hdino

theorem Entered.dirAt {k : ℕ} {de : Dirent} (h : Entered dp s s' k de) (hd : DirAt s dp d) :
    DirAt s' dp d :=
  { h.openDir with
    inum_eq := by rw [h.touch.inum, hd.inum_eq]
    dev_eq := by rw [h.touch.self, hd.dev_eq] }

theorem FieldsSet.dirAt {f : Dinode → Dinode} (h : FieldsSet dp f s s')
    (ht : ∀ x, (f x).type = x.type) (hsz : ∀ x, (f x).size = x.size) (hd : DirAt s dp d) :
    DirAt s' dp d := by
  have hfields : (s'.icache dp).d = f (s.icache dp).d := by
    rw [h.loaded.copy, h.touch.inum, h.view, View.setDino_dino, update_self]
  exact
    { disk := h.disk
      loaded := h.loaded
      type_eq := by rw [hfields, ht]; exact hd.type_eq
      size_dvd := by rw [hfields, hsz]; exact hd.size_dvd
      inum_eq := by rw [h.touch.inum, hd.inum_eq]
      dev_eq := by rw [h.touch.self, hd.dev_eq] }

theorem DirAt.dirlink_absent (h : DirAt s dp d) (me : P)
    (habsent : bound (s.view.dirents d) name = none) (inum : ℕ) :
    Wpx me (fun _ => True) (Fs.dirlink dp name inum) (fun r s' => r = true ∧
      Entered dp s s' ((s.view.dirents d).findIdx (·.inum = 0)) ⟨BitVec.ofNat 16 inum, key name⟩ ∧
      Spends 2 (homes s.sb d) s s') s := by
  have hlook := h.dirlookup (E := fun _ => True) name fun _ => trivial
  have hnone : lookupFrom name (s.view.dirents d) 0 = none := by
    rw [← map_eq_none_iff (f := Prod.fst), map_lookupFrom, habsent]
  rw [hnone] at hlook
  have hspec := (addEntry_spec (E := fun _ => True) h.toOpenDir name inum (fun _ _ => trivial)
    fun _ _ => trivial).and (addEntry_logs h.toOpenDir name inum)
  rw [h.inum_eq] at hspec
  rw [Fs.dirlink, wpx_bind, wpx_lift]
  refine hlook.mono fun r s₁ hr => ?_
  obtain ⟨rfl, rfl⟩ := hr
  simp only [wpx_bind, wpx_lift, pure_eq_ret, wpx_ret]
  exact hspec.mono fun _ s' hs' => ⟨trivial, hs'⟩

/-! ### `create` -/

variable {extra : Slot → ℕ} {lk : Finset Slot}

theorem Alone.createDots (h : Alone me s extra lk s') (hdp : DirAt s' dp d) (hip : DirAt s' ip i)
    (hpos : 0 < extra dp) (hposi : 0 < extra ip) (hne : d ≠ i)
    (hnil : s'.view.dirents i = []) :
    Wpx me (fun _ => True) (Fs.createDots dp ip) (fun _ s'' => Alone me s extra lk s'' ∧
      DirAt s'' dp d ∧ s''.view.dirents d = s'.view.dirents d ∧
      (s''.icache ip).inum = i ∧ (s''.icache ip).valid = (s'.icache ip).valid ∧
      Spends 4 (homes s.sb d ∪ homes s.sb i) s' s'') s' := by
  have hslot : dp ≠ ip := fun heq => hne (by rw [← hdp.inum_eq, heq, hip.inum_eq])
  have hdot : key dotName ≠ key dotdotName := by decide
  rw [Fs.createDots, wpx_bind, wpx_lift, wp_bind]
  simp only [wp_bind, wp_get, wp_pure]
  refine (wp_bind (modifyInode dp fun x => { x with nlink := x.nlink + 1 })
    (fun _ => iupdate dp) _ _).mp ?_
  refine ((setFields_spec (f := fun x => { x with nlink := x.nlink + 1 }) hdp.disk hdp.loaded
    (fun _ => rfl) (fun _ => rfl) fun _ => rfl).and (setFields_logs s' dp _)).mono
      fun _ s₁ hs₁ => ?_
  obtain ⟨hset, hlogs, -⟩ := hs₁
  have hstore₁ := hset.storeOk h.store (h.ref_pos hpos)
  have h₁ := h.touch hset.touch hstore₁
  have hdp₁ := hset.dirAt (fun _ => rfl) (fun _ => rfl) hdp
  have hip₁ := hip.of_touch hset.touch hslot.symm hset.disk
    (hset.dino_of_ne i (by rw [hdp.inum_eq]; exact hne.symm))
  have hnil₁ : s₁.view.dirents i = [] := (View.dirents_congr (hset.bytes i)).trans hnil
  rw [hdp₁.inum_eq, hip₁.inum_eq, wpx_bind]
  refine (hip₁.dirlink_absent me (by rw [hnil₁]; rfl) i).mono fun r s₂ hs₂ => ?_
  obtain ⟨rfl, hent₂, hspend₂⟩ := hs₂
  rw [if_pos rfl, wpx_bind]
  have hposi₁ := h₁.ref_pos hposi
  have h₂ := h₁.touch hent₂.touch (hent₂.storeOk hstore₁ hposi₁)
  have hip₂ := hent₂.dirAt hip₁
  have hi₁ := hip₁.inum_eq
  have hdots : s₂.view.dirents i = [⟨BitVec.ofNat 16 i, key dotName⟩] := by
    have := hent₂.dirents
    rw [hi₁, hnil₁] at this
    exact this
  have habsent : bound (s₂.view.dirents i) dotdotName = none := by
    rw [hdots, bound_eq_none_iff]
    intro e he _
    rw [List.mem_singleton.mp he, key_key]
    exact hdot
  refine (hip₂.dirlink_absent me habsent d).mono fun r s₃ hs₃ => ?_
  obtain ⟨rfl, hent₃, hspend₃⟩ := hs₃
  rw [if_pos rfl]
  have h₃ := h₂.touch hent₃.touch (hent₃.storeOk h₂.store (h₂.ref_pos hposi))
  have hi₂ := hip₂.inum_eq
  have hother₂ := hent₂.bytes_of_ne d (by rw [hi₁]; exact hne)
  have hother₃ := hent₃.bytes_of_ne d (by rw [hi₂]; exact hne)
  have hdp₂ := hdp₁.of_touch hent₂.touch hslot h₂.store.disk
    (hent₂.dino_of_ne d (by rw [hi₁]; exact hne))
  refine ⟨h₃, hdp₂.of_touch hent₃.touch hslot h₃.store.disk
    (hent₃.dino_of_ne d (by rw [hi₂]; exact hne)), ?_, ?_, ?_, ?_⟩
  · rw [View.dirents_congr hother₃, View.dirents_congr hother₂, View.dirents_congr (hset.bytes d)]
  · rw [hent₃.touch.inum, hi₂]
  · rw [hent₃.touch.self, hent₂.touch.self, hset.touch.of_ne hslot.symm]
  · rw [hdp.inum_eq, h.sb] at hlogs
    rw [h₁.sb] at hspend₂
    rw [h₂.sb] at hspend₃
    exact ((hlogs.spends.mono le_rfl Set.subset_union_left).trans
      (hspend₂.mono le_rfl Set.subset_union_right)).trans
        (hspend₃.mono le_rfl Set.subset_union_right)

/-- `create` has found a file. -/
structure FoundFile (me : P) (s : State P) (path : Str) (ip : Slot) (s' : State P) : Prop where
  held : Using me s (oneRef (some ip)) {ip} s'
  valid : (s'.icache ip).valid = true
  resolve : s.view.resolve (s.start me path) (components path) = some (s'.icache ip).inum
  type_eq : (s.view.dino (s'.icache ip).inum).type = tFile

/-- The free inode `i` has become that of an empty file or a device, and has been entered in
directory `d`. -/
structure Linked (s : State P) (d : ℕ) (name : Str) (i : ℕ) (type major minor : Short)
    (s' : State P) : Prop where
  dino : s'.view.dino i =
    { Dinode.zero with type := type, major := major, minor := minor, nlink := 1 }
  bytes : s'.view.bytes i = []
  dirents : s'.view.dirents d = splice (s.view.dirents d) ((s.view.dirents d).findIdx (·.inum = 0))
      [⟨BitVec.ofNat 16 i, key name⟩]
  type_parent : (s'.view.dino d).type = (s.view.dino d).type
  dino_of_ne : ∀ j, j ≠ i → j ≠ d → s'.view.dino j = s.view.dino j
  bytes_of_ne : ∀ j, j ≠ i → j ≠ d → s'.view.bytes j = s.view.bytes j

/-- `create` has made an inode. -/
structure Created (me : P) (s : State P) (path : Str) (type major minor : Short) (d : ℕ)
    (name : Str) (ip : Slot) (s' : State P) : Prop where
  alone : Alone me s (oneRef (some ip)) {ip} s'
  valid : (s'.icache ip).valid = true
  parent : s.view.parent (s.start me path) (components path) = some (d, name)
  absent : bound (s.view.dirents d) name = none
  free : (s.view.dino (s'.icache ip).inum).type = 0
  pos : 0 < (s'.icache ip).inum
  spends : Spends 6 (homes s.sb d ∪ homes s.sb (s'.icache ip).inum) s s'
  linked : type ≠ tDir → Linked s d name (s'.icache ip).inum type major minor s'

/-- The path leads to a directory, and its last component is not a name there. -/
def Vacant (s : State P) (me : P) (path : Str) : Prop :=
  ∃ d name, s.view.parent (s.start me path) (components path) = some (d, name) ∧
    bound (s.view.dirents d) name = none

theorem Vacant.resolve_eq_none (h : Vacant s me path) :
    s.view.resolve (s.start me path) (components path) = none := by
  obtain ⟨d, name, hparent, habsent⟩ := h
  obtain ⟨hlast, -, hdir⟩ := View.parent_eq_some_iff.mp hparent
  have hne : components path ≠ [] := fun hnil => by simp [hnil] at hlast
  rw [View.resolve_eq_parent hne, hparent, bind_some, View.step_eq, if_pos hdir, habsent]

theorem not_vacant_of_resolve {i : ℕ}
    (h : s.view.resolve (s.start me path) (components path) = some i) : ¬ Vacant s me path :=
  fun hv => by simp [hv.resolve_eq_none] at h

theorem update_succ_pos (extra : Slot → ℕ) (ip : Slot) : 0 < update extra ip (extra ip + 1) ip := by
  rw [update_self]
  omega

theorem erase_pair (h : dp ≠ ip) : ({ip, dp} : Finset Slot).erase dp = {ip} := by
  rw [Finset.erase_insert_of_ne h.symm, Finset.erase_singleton, insert_empty_eq]

/-- A new inode with its fields, locked beside the directory that it is made for. -/
structure Fresh (me : P) (s : State P) (dp : Slot) (d : ℕ) (ip : Slot) (i : ℕ)
    (type major minor : Short) (s' : State P) : Prop where
  alone : Alone me s (update (oneRef (some dp)) ip (oneRef (some dp) ip + 1)) {ip, dp} s'
  slot_ne : dp ≠ ip
  ne : d ≠ i
  pos : 0 < i
  free : (s.view.dino i).type = 0
  dir : DirAt s' dp d
  inum : (s'.icache ip).inum = i
  valid : (s'.icache ip).valid = true
  dino : s'.view.dino i =
    { Dinode.zero with type := type, major := major, minor := minor, nlink := 1 }
  bytes : s'.view.bytes i = []
  dino_of_ne : ∀ j, j ≠ i → s'.view.dino j = s.view.dino j
  bytes_of_ne : ∀ j, j ≠ i → s'.view.bytes j = s.view.bytes j
  spends : Spends 0 (homes s.sb i) s s'

namespace Fresh

variable {type major minor : Short}

theorem extra_dp (h : Fresh me s dp d ip i type major minor s') :
    0 < update (oneRef (some dp)) ip (oneRef (some dp) ip + 1) dp := by
  rw [update_of_ne h.slot_ne, oneRef_self]
  omega

theorem loaded (h : Fresh me s dp d ip i type major minor s') : Loaded s' ip :=
  h.alone.store.cache.loaded ip (h.alone.ref_pos (update_succ_pos _ ip)) h.valid

theorem dirAt (h : Fresh me s dp d ip i tDir major minor s') : DirAt s' ip i := by
  have hcopy := h.loaded.copy
  rw [h.inum, h.dino] at hcopy
  exact
    { disk := h.alone.store.disk
      loaded := h.loaded
      type_eq := by rw [hcopy]
      size_dvd := by rw [hcopy]; exact Nat.dvd_zero _
      inum_eq := h.inum
      dev_eq := h.alone.store.cache.dev_eq ip (h.alone.ref_pos (update_succ_pos _ ip)) }

theorem dirents (h : Fresh me s dp d ip i type major minor s') : s'.view.dirents i = [] := by
  rw [View.dirents_eq, h.bytes]
  rfl

end Fresh

variable [DecidableEq P]

/-- The part of `create` that enters the new inode in the directory. -/
def enterNew (me : P) (dp ip : Slot) (name : Str) (type : Short) : Kernel P (Option Slot) := do
  if type = tDir then
    createDots dp ip
  let inum ← .lift do return ((← get).icache ip).inum
  if ← dirlink dp name inum then
    iunlockput me dp
    return some ip
  else
    .fail .createDirlink

/-- The part of `create` for a name that is absent from the locked directory. -/
def createNew (me : P) (dp : Slot) (name : Str) (type major minor : Short) :
    Kernel P (Option Slot) := do
  let ip ← .lift do ialloc ((← get).icache dp).dev type
  ilock ip .createNew
  .lift (initInode ip major minor)
  enterNew me dp ip name type

theorem Fresh.enter_dir {major minor : Short} (h : Fresh me s dp d ip i tDir major minor s')
    (hparent : s.view.parent (s.start me path) (components path) = some (d, name))
    (habsent : bound (s.view.dirents d) name = none) :
    Wpx me (fun _ => True) (enterNew me dp ip name tDir) (fun r s'' =>
      r = some ip ∧ Created me s path tDir major minor d name ip s'') s' := by
  rw [enterNew, if_pos rfl, wpx_bind]
  refine (h.alone.createDots h.dir h.dirAt h.extra_dp (update_succ_pos _ ip) h.ne h.dirents).mono
    fun _ s₁ hs₁ => ?_
  obtain ⟨h₁, hdir₁, hdirents, hinum, hvalid, hspend⟩ := hs₁
  have hsame : s'.view.dirents d = s.view.dirents d := View.dirents_congr (h.bytes_of_ne d h.ne)
  simp only [wpx_bind, wpx_lift, wp_bind, wp_get, wp_pure]
  refine (hdir₁.dirlink_absent me (by rw [hdirents, hsame]; exact habsent) _).mono
    fun r s₂ hs₂ => ?_
  obtain ⟨rfl, hent, hspend₂⟩ := hs₂
  rw [if_pos rfl, wpx_bind]
  have h₂ := h₁.touch hent.touch (hent.storeOk h₁.store (h₁.ref_pos h.extra_dp))
  refine (h₂.iunlockput_logs (by simp) h.extra_dp).mono fun _ s₃ hs₃ => ⟨rfl, ?_⟩
  obtain ⟨h₃, hlogs, honly⟩ := hs₃
  have hi₂ : (s₂.icache ip).inum = i := by rw [hent.touch.of_ne h.slot_ne.symm, hinum]
  have hi₃ : (s₃.icache ip).inum = i := by rw [honly.inum, hi₂]
  exact
    { alone := (h₃.congr (oneRef_move dp ip)).congr_lk (erase_pair h.slot_ne)
      valid := by
        rw [honly.of_ne ip h.slot_ne.symm, hent.touch.of_ne h.slot_ne.symm, hvalid, h.valid]
      parent := hparent
      absent := habsent
      free := by rw [hi₃]; exact h.free
      pos := by rw [hi₃]; exact h.pos
      spends := by
        rw [hi₃]
        rw [h₁.sb] at hspend₂
        rw [hent.touch.inum, hdir₁.inum_eq] at hlogs
        exact (((h.spends.mono le_rfl Set.subset_union_right).trans hspend).trans
          (hspend₂.mono le_rfl Set.subset_union_left)).trans
            (hlogs.spends.mono le_rfl Set.subset_union_left)
      linked := fun hne => absurd rfl hne }

theorem Fresh.enter_file {type major minor : Short} (htype : type ≠ tDir)
    (h : Fresh me s dp d ip i type major minor s')
    (hparent : s.view.parent (s.start me path) (components path) = some (d, name))
    (habsent : bound (s.view.dirents d) name = none)
    (hkeep : 0 < (s.icache dp).ref ∨ (s.view.dino d).nlink ≠ 0) :
    Wpx me (fun _ => True) (enterNew me dp ip name type) (fun r s'' =>
      r = some ip ∧ Created me s path type major minor d name ip s'') s' := by
  have hsame : s'.view.dirents d = s.view.dirents d := View.dirents_congr (h.bytes_of_ne d h.ne)
  have hposd := h.extra_dp
  rw [enterNew, if_neg htype]
  simp only [wpx_bind, wpx_lift, wp_bind, wp_get, wp_pure, pure_eq_ret]
  rw [h.inum]
  refine (h.dir.dirlink_absent me (by rw [hsame]; exact habsent) i).mono fun r s₂ hs₂ => ?_
  obtain ⟨rfl, hent, hspend₂⟩ := hs₂
  rw [if_pos rfl, wpx_bind]
  have h₂ := h.alone.touch hent.touch (hent.storeOk h.alone.store (h.alone.ref_pos hposd))
  have hd := h.dir.inum_eq
  have hdino : s'.view.dino d = s.view.dino d := h.dino_of_ne d h.ne
  have hnlink : (s₂.view.dino (s₂.icache dp).inum).nlink = (s.view.dino d).nlink := by
    rw [hent.touch.inum, hent.fields, hd, hdino]
  refine (h₂.iunlockput (by simp) hposd ?_).mono fun _ s₃ hs₃ => ⟨rfl, ?_⟩
  · rw [hnlink]
    exact hkeep.imp_left (by omega)
  obtain ⟨h₃, hcalm, honly⟩ := hs₃
  have hi₂ : (s₂.icache ip).inum = i := by rw [hent.touch.of_ne h.slot_ne.symm, h.inum]
  have hi₃ : (s₃.icache ip).inum = i := by rw [honly.inum, hi₂]
  exact
    { alone := (h₃.congr (oneRef_move dp ip)).congr_lk (erase_pair h.slot_ne)
      valid := by
        rw [honly.of_ne ip h.slot_ne.symm, hent.touch.of_ne h.slot_ne.symm, h.valid]
      parent := hparent
      absent := habsent
      free := by rw [hi₃]; exact h.free
      pos := by rw [hi₃]; exact h.pos
      spends := by
        rw [hi₃]
        rw [h.alone.sb] at hspend₂
        exact (((h.spends.mono le_rfl Set.subset_union_right).trans
          (hspend₂.mono le_rfl Set.subset_union_left)).trans (.of_calm hcalm)).mono (by omega)
            subset_rfl
      linked := fun _ => by
        have hview := hcalm.view
        have hdirents := hent.dirents
        rw [hd, hsame] at hdirents
        rw [hi₃]
        refine ⟨?_, ?_, ?_, ?_, fun j hji hjd => ?_, fun j hji hjd => ?_⟩
        · rw [hview, hent.dino_of_ne i (by rw [hd]; exact h.ne.symm), h.dino]
        · rw [hview, hent.bytes_of_ne i (by rw [hd]; exact h.ne.symm), h.bytes]
        · rw [hview, hdirents]
        · rw [hview, ← hd, hent.fields, hd, hdino]
        · rw [hview, hent.dino_of_ne j (by rw [hd]; exact hjd), h.dino_of_ne j hji]
        · rw [hview, hent.bytes_of_ne j (by rw [hd]; exact hjd), h.bytes_of_ne j hji] }

theorem Quiescent.createNew {type : Short} (major minor : Short) (htype : type ≠ 0)
    (hq : Quiescent s me) (hu : Using me s (oneRef (some dp)) {dp} s') (hdir : DirAt s' dp d)
    (hparent : s.view.parent (s.start me path) (components path) = some (d, name))
    (habsent : bound (s.view.dirents d) name = none) :
    Wpx me (fun _ => True) (Fs.createNew me dp name type major minor) (fun r s'' =>
      ∃ ip, r = some ip ∧ Created me s path type major minor d name ip s'') s' := by
  obtain ⟨-, hdtype, hlive⟩ := hq.named_parent hparent
  have hkeep := hu.kept hdir.inum_eq hlive
  rw [Fs.createNew, wpx_bind, wpx_lift]
  simp only [wp_bind, wp_get, hdir.dev_eq]
  refine ((ialloc_spec hdir.disk.ordered type (fun _ => trivial) fun _ => trivial).and
    (ialloc_logs s' type)).mono fun ip s₂ hs₂ => ?_
  obtain ⟨⟨i, s₁, hmark, hgot⟩, hlogs₂⟩ := hs₂
  rw [hgot.inum, hu.sb] at hlogs₂
  have hfree : (s.view.dino i).type = 0 := hu.view ▸ hmark.free
  have hne : d ≠ i := fun heq => hdtype (heq ▸ hfree)
  have hdp₁ : DirAt s₁ dp d := hdir.congr (by rw [hmark.same.icache]) hmark.same.sb
    (hmark.storeOk hu.store).disk (hmark.dino_of_ne hne)
  have h₁ : Alone me s (oneRef (some dp)) {dp} s₁ :=
    hu.toAlone.touch (.of_sameMem hmark.same : Touch dp s' s₁) (hmark.storeOk hu.store)
  have hpos₁ : 0 < (s₁.icache dp).ref := h₁.ref_pos (by rw [oneRef_self]; omega)
  have h₂ := h₁.got hgot (hu.sb ▸ hmark.lt)
  have hslot : dp ≠ ip := fun heq => hne (by
    rw [← hgot.inum, ← heq, hgot.inum_of_pos hpos₁, hdp₁.inum_eq])
  have hdp₂ : DirAt s₂ dp d := hdp₁.congr (hgot.of_ne hslot) hgot.sb h₂.store.disk
    (by rw [hgot.view])
  have hnew₂ : s₂.view.dino i = { Dinode.zero with type := type } := by
    rw [hgot.view, hmark.dino_self]
  have hposi := h₂.ref_pos (update_succ_pos (oneRef (some dp)) ip)
  have htype₂ : (s₂.view.dino (s₂.icache ip).inum).type ≠ 0 := by
    rw [hgot.inum, hnew₂]
    exact htype
  rw [wpx_bind]
  refine (h₂.ilock (by simpa using hslot.symm) hposi htype₂ _).mono fun _ s₃ hs₃ => ?_
  obtain ⟨rfl, h₃⟩ := hs₃
  have hload := h₂.store.loaded_lockRead hposi htype₂ me
  have hdp₃ : DirAt (s₂.lockRead ip me) dp d := hdp₂.congr (update_of_ne hslot ..) rfl
    h₃.store.disk rfl
  have hi₃ : ((s₂.lockRead ip me).icache ip).inum = i := by simp [State.lockRead, hgot.inum]
  rw [wpx_bind, wpx_lift, initInode]
  refine ((setFields_spec (f := fun x => { x with major := major, minor := minor, nlink := 1 })
    h₃.store.disk hload (fun _ => rfl) (fun _ => rfl) fun _ => rfl).and
      (setFields_logs (s₂.lockRead ip me) ip _)).mono fun _ s₄ hs₄ => ?_
  obtain ⟨hset, hlogs₄, -⟩ := hs₄
  have hd₃ : ((s₂.lockRead ip me).icache ip).d = { Dinode.zero with type := type } := by
    simp [State.lockRead, hgot.inum, hnew₂]
  have hfresh : Fresh me s dp d ip i type major minor s₄ :=
    { alone := h₃.touch hset.touch (hset.storeOk h₃.store
        (h₃.ref_pos (update_succ_pos (oneRef (some dp)) ip)))
      slot_ne := hslot
      ne := hne
      pos := hmark.pos
      free := hfree
      dir := hdp₃.of_touch hset.touch hslot hset.disk (hset.dino_of_ne d (by rw [hi₃]; exact hne))
      inum := by rw [hset.touch.inum, hi₃]
      valid := by
        rw [hset.touch.self]
        simp [State.lockRead]
      dino := by rw [hset.view, hi₃, View.setDino_dino, update_self, hd₃]
      bytes := by
        rw [hset.bytes]
        exact (congrArg (View.bytes · i) hgot.view).trans hmark.bytes_self
      dino_of_ne := fun j hj => by
        rw [hset.dino_of_ne j (by rw [hi₃]; exact hj)]
        exact (congrArg (View.dino · j) hgot.view).trans
          ((hmark.dino_of_ne hj).trans (congrArg (View.dino · j) hu.view))
      bytes_of_ne := fun j hj => by
        rw [hset.bytes]
        exact (congrArg (View.bytes · j) hgot.view).trans
          ((hmark.bytes_of_ne hj).trans (congrArg (View.bytes · j) hu.view))
      spends := by
        rw [hi₃] at hlogs₄
        have hsb₃ : (s₂.lockRead ip me).sb = s.sb := h₂.sb
        rw [hsb₃] at hlogs₄
        exact ((Logs.of_eq hu.logged).trans (hlogs₂.trans (.trans (.of_eq rfl) hlogs₄))).spends }
  by_cases hdirtype : type = tDir
  · subst hdirtype
    exact (hfresh.enter_dir hparent habsent).mono fun r s₅ hr => ⟨ip, hr⟩
  · exact (hfresh.enter_file hdirtype hparent habsent hkeep).mono fun r s₅ hr => ⟨ip, hr⟩

/-- `create` returns nothing and has changed nothing, or it returns a file that it has found or an
inode that it has made; this is when there is a place for it. -/
theorem Quiescent.create (hq : Quiescent s me) (path : Str) {type : Short} (major minor : Short)
    (htype : type ≠ 0) :
    Wpx me (fun _ => True) (Fs.create me path type major minor) (fun r s' =>
      (r = none ∧ ¬ Vacant s me path ∧ Using me s (oneRef none) ∅ s') ∨
      (∃ ip, r = some ip ∧ type = tFile ∧ FoundFile me s path ip s') ∨
      ∃ ip d name, r = some ip ∧ Created me s path type major minor d name ip s') s := by
  rw [Fs.create, wpx_bind]
  refine (namex_spec hq path true fun _ => trivial).mono fun r s₁ hr => ?_
  obtain ⟨hr, hu⟩ := hr
  cases r with
  | none =>
    rw [View.walk, if_pos rfl] at hr
    refine .inl ⟨rfl, fun hvacant => ?_, hu⟩
    obtain ⟨d, name, hparent, -⟩ := hvacant
    rw [hparent] at hr
    cases hr
  | some q =>
    obtain ⟨dp, name⟩ := q
    have hparent := hr.symm
    rw [View.walk, if_pos rfl, map_some] at hparent
    rw [map_some] at hu
    dsimp only at hparent hu
    obtain ⟨d, hd⟩ : ∃ d, d = (s₁.icache dp).inum := ⟨_, rfl⟩
    rw [← hd] at hparent
    obtain ⟨hlast, hdir⟩ := View.of_parent_eq_some hparent
    obtain ⟨-, hdtype, hlive⟩ := hq.named_parent hparent
    have hpos : 0 < (s₁.icache dp).ref := hu.ref_pos (by rw [oneRef_self]; omega)
    simp only [wpx_bind]
    refine (hu.ilock (Finset.notMem_empty _) hpos (hd ▸ hdtype) _).mono fun _ s₂ hs₂ => ?_
    obtain ⟨rfl, hu₂⟩ := hs₂
    have hd₂ : ((s₁.lockRead dp me).icache dp).inum = d := by simp [State.lockRead, hd]
    have hpos₂ : 0 < ((s₁.lockRead dp me).icache dp).ref := by simpa [State.lockRead] using hpos
    have hvalid₂ : ((s₁.lockRead dp me).icache dp).valid = true := by simp [State.lockRead]
    have hdp₂ : DirAt (s₁.lockRead dp me) dp d :=
      { hu₂.openDir hq hpos₂ hvalid₂ (hd₂ ▸ hdir) with
        inum_eq := hd₂
        dev_eq := hu₂.store.cache.dev_eq dp hpos₂ }
    have hbound := map_lookupFrom name (s.view.dirents d) 0
    rw [wpx_lift]
    refine (hu₂.dirlookup (F := fun _ => True) hq hvalid₂ hd₂ hdir (fun _ => trivial) name).mono
      fun r s₃ hr => ?_
    cases hl : lookupFrom name (s.view.dirents d) 0 with
    | none =>
      rw [hl] at hr hbound
      obtain ⟨rfl, rfl⟩ := hr
      refine (hq.createNew major minor htype hu₂ hdp₂ hparent hbound.symm).mono fun r s' hr => ?_
      obtain ⟨ip, hr, hcreated⟩ := hr
      exact .inr (.inr ⟨ip, d, name, hr, hcreated⟩)
    | some q =>
      obtain ⟨j, off⟩ := q
      rw [hl] at hr hbound
      obtain ⟨ip, rfl, hgot⟩ := hr
      obtain ⟨hj, hjtype, hjlive⟩ := hq.of_lookup hdir hl
      have hresolve : s.view.resolve (s.start me path) (components path) = some j := by
        have hne : components path ≠ [] := fun hnil => by simp [hnil] at hlast
        rw [View.resolve_eq_parent hne, hparent, bind_some, View.step, if_pos hdir]
        dsimp only
        rw [hl, map_some]
      have hu₃ := hu₂.got hgot hj
      have hextra : 0 < update (oneRef (some dp)) ip (oneRef (some dp) ip + 1) dp := by
        by_cases hslot : dp = ip
        · subst hslot
          exact update_succ_pos _ _
        · rw [update_of_ne hslot, oneRef_self]
          omega
      simp only [wpx_bind]
      refine (hu₃.iunlockput (Finset.mem_insert_self _ _) hextra ?_).mono fun _ s₄ hs₄ => ?_
      · rw [(hgot.inum_of_pos hpos₂).trans hd₂]
        exact (hu₂.kept hd₂ hlive).imp_left (by omega)
      have hu₄ := (hs₄.1.congr (oneRef_move dp ip)).congr_lk
        (Finset.erase_insert (Finset.notMem_empty _))
      have hi₄ : (s₄.icache ip).inum = j := (hs₄.2.inum ip).trans hgot.inum
      have hpos₄ : 0 < (s₄.icache ip).ref := hu₄.ref_pos (by rw [oneRef_self]; omega)
      refine (hu₄.ilock (Finset.notMem_empty _) hpos₄ (hi₄ ▸ hjtype) _).mono fun _ s₅ hs₅ => ?_
      obtain ⟨rfl, hu₅⟩ := hs₅
      have hi₅ : ((s₄.lockRead ip me).icache ip).inum = j := by simp [State.lockRead, hi₄]
      have hd₅ : ((s₄.lockRead ip me).icache ip).d = s.view.dino j := by
        simp [State.lockRead, hu₄.view, hi₄]
      simp only [wpx_lift, wp_bind, wp_get, wp_pure, hd₅]
      split_ifs with hfile
      · refine .inr (.inl ⟨ip, rfl, hfile.1, hu₅, by simp [State.lockRead], ?_, ?_⟩)
        · rw [hi₅, hresolve]
        · rw [hi₅, hfile.2]
      · rw [wpx_bind]
        refine (hu₅.iunlockput (Finset.mem_insert_self _ _) (by rw [oneRef_self]; omega) ?_).mono
          fun _ s₆ hs₆ => .inl ⟨rfl, not_vacant_of_resolve hresolve, ?_⟩
        · rw [hi₅]
          exact (hu₅.kept hi₅ hjlive).imp_left (by rw [oneRef_self]; omega)
        · exact (hs₆.1.congr (oneRef_drop ip)).congr_lk
            (Finset.erase_insert (Finset.notMem_empty _))

end Dave.Fs
