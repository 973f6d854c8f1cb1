import Dave.Fs.Unlink

/-!
# `create` keeps the invariant of all processes

`create` locks a directory, allocates an inode, and locks that. A new directory is filled with the
entries `.` and `..` before the entry for it is made. At the end it takes the lock of the directory
once more, in `iput`, with the new inode still locked.
-/

namespace Dave.Fs

open Function Interleave

variable {P : Type} [DecidableEq P] [Fintype P] {κ : Scope} {old : History} {me : P}
  {s s' : State P}
  {gs : P → Ghost} {ip jp dp : Slot} {g : Ghost} {name : Str} {sn sn' : Snap} {type : Short}

/-! ### Reading locked inodes -/

namespace Global

variable (h : Global κ old s gs)

include h

omit [DecidableEq P] in
theorem locked_d (hg : gs me = g) (hl : g.locks ip = some (some sn)) :
    (s.icache ip).d = sn.d := h.base.snap_d (by rw [hg, hl])

omit [DecidableEq P] in
theorem locked_inum (hg : gs me = g) (hl : g.locks ip = some (some sn)) :
    (s.icache ip).inum = sn.inum := ((h.base.loc me).snap ip sn (by rw [hg, hl])).inum

omit [DecidableEq P] in
theorem inum_lt (hg : gs me = g) (hl : g.locks ip = some (some sn)) : sn.inum < κ.sb.ninodes := by
  have hlt := (h.base.loaded (by rw [hg, hl])).inum_lt
  rwa [h.locked_inum hg hl, h.sb_eq] at hlt

omit [DecidableEq P] in
theorem inum_pos (hg : gs me = g) (hl : g.locks ip = some (some sn)) (hdots : κ.dots = true) :
    0 < sn.inum := by
  have hload := h.base.loaded (by rw [hg, hl])
  rw [← h.locked_inum hg hl]
  refine Nat.pos_of_ne_zero fun h0 => hload.type_ne ?_
  rw [hload.copy, h0, (h.dotted hdots).zero]

end Global

theorem read_of_triple {α : Type} {f : State P → α} {R : α → Prop}
    (h : ∀ {old : History} s gs, Global κ old s gs → gs me = g → R (f s)) :
    KTriple κ me g (.lift do return f (← get)) (fun r g' => R r ∧ g' = g) :=
  .lift fun s gs hG hg => ⟨g, ⟨h s gs hG hg, rfl⟩, by rwa [← hg, update_eq_self]⟩

/-- The fields of a locked inode are those of the snapshot. -/
theorem readFields_triple (hl : g.locks ip = some (some sn)) :
    KTriple κ me g (.lift do return ((← get).icache ip).d) (fun d g' => d = sn.d ∧ g' = g) :=
  read_of_triple fun _ _ hG hg => hG.locked_d hg hl

/-! ### The new inode -/

/-- The inode has been allocated for an entry of the directory. -/
def Ghost.creating (g : Ghost) (dp ip : Slot) (type : Short) (sn : Snap) : Ghost :=
  { (g.take ip).setLock dp (some (some sn)) with fresh := some ip, kind := type }

/-- The new inode has been locked. -/
def Ghost.creatingBoth (g : Ghost) (dp ip : Slot) (type : Short) (sn sn' : Snap) : Ghost :=
  (g.creating dp ip type sn).setLock ip (some (some sn'))

theorem Global.marked (h : Global κ old s gs) (hg : gs me = g.setLock dp (some (some sn)))
    (hfree : g.Free) (htype : type ≠ 0) {i : ℕ} {s₁ : State P} (hm : Marked i type s s₁)
    (hgot : Got s₁ i ip s') :
    Global κ old s' (update gs me (g.creating dp ip type sn)) := by
  have hne {x : ℕ} (hx : (s.view.dino x).type ≠ 0) : x ≠ i := fun heq => hx (heq ▸ hm.free)
  obtain ⟨hdino, hbytes, hself, hnil, hnum⟩ := hm.born hgot
  -- the new inodes of the others have a type
  have hother {q : P} {jp : Slot} (hq : q ≠ me)
      (hf : (update gs me (g.creating dp ip type sn) q).fresh = some jp) :
      (gs q).fresh = some jp ∧ s.num jp ≠ i := by
    rw [update_of_ne hq] at hf
    obtain ⟨-, htyp, hkind⟩ := h.made q jp hf
    exact ⟨hf, hne (by rw [← htyp] at hkind; exact hkind)⟩
  have hrefs : ((gs me).take ip).quiet = (g.creating dp ip type sn).quiet := by
    rw [hg]
    rfl
  refine ⟨?_, ?_, fun p jp hf => ?_, fun hdots => ?_, fun x => ?_⟩
  · rw [hgot.sb, hm.same.sb, h.sb_eq]
  · have hact : (gs me).active = true := by rw [hg]; exact hfree.active
    have hbase₁ : Base s' (update gs me ((gs me).take ip)) :=
      (h.base.mark hm).got (hm.same.sb ▸ hm.lt) hact hgot
    have hbase := hbase₁.relabel (g := g.creating dp ip type sn)
      (by rw [update_self]; exact hact) (by rw [update_self]; exact hrefs.symm)
    rwa [update_idem] at hbase
  · by_cases hp : p = me
    · subst hp
      rw [update_self] at hf ⊢
      obtain rfl := Option.some.inj hf
      refine ⟨g.take_refs_pos _, ?_, htype⟩
      rw [State.typ, State.num, hgot.inum, hself]
      rfl
    · obtain ⟨hf', hj⟩ := hother hp hf
      rw [update_of_ne hp, State.typ, hnum jp (h.num_pos hf'), hdino _ hj]
      exact h.made p jp hf'
  · obtain ⟨hzero, hdirs⟩ := h.dotted hdots
    refine ⟨by rw [hdino 0 hm.pos.ne, hzero], fun x hx => ?_⟩
    by_cases hxi : x = i
    · exact .inr ⟨me, ip, by rw [update_self]; rfl, hxi ▸ hgot.inum⟩
    · rw [hdino x hxi] at hx
      rw [View.dirents_congr (hbytes x hxi)]
      refine (hdirs x hx).imp id ?_
      rintro ⟨q, jp, hf, rfl⟩
      have hq : q ≠ me := by
        rintro rfl
        rw [hg] at hf
        exact absurd (hfree.quiet.fresh.symm.trans hf) (by simp)
      exact ⟨q, jp, by rwa [update_of_ne hq], hnum jp (h.num_pos hf)⟩
  · refine (h.past x).trans ?_
    by_cases hxi : x = i
    · subst hxi
      rw [State.dir, State.dir, hm.free, hself, hnil]
      exact .single (.alloc _ _)
    · rw [State.dir_congr (by rw [hdino x hxi]) (hbytes x hxi)]

/-- The new inode is one that the process is making. -/
theorem ialloc_triple (hfree : g.Free) (htype : type ≠ 0) :
    KTriple κ me (g.setLock dp (some (some sn))) (.lift do ialloc ((← get).icache dp).dev type)
      (fun ip g' => g' = g.creating dp ip type sn) := by
  refine .lift fun s gs hG hg => ?_
  have hG' : Global κ _ s gs := hG
  have hl : (gs me).locks dp = some (some sn) := by rw [hg]; exact update_self ..
  have hpos := hG'.base.ref_pos_of_lock (((hG'.base.loc me).lock dp).mpr (by rw [hl]; simp))
  simp only [wp_bind, wp_get]
  rw [hG'.base.store.cache.dev_eq dp hpos]
  refine (ialloc_spec hG'.base.store.disk.ordered type (fun _ => Panic.noConfusion)
    fun _ => Panic.noConfusion).mono fun ip s' hs' => ?_
  obtain ⟨i, s₁, hm, hgot⟩ := hs'
  exact ⟨_, rfl, hG'.marked hg hfree htype hm hgot⟩

theorem ilock_createNew (hfree : g.Free) :
    KTriple κ me (g.creating dp ip type sn) (ilock ip .createNew) (fun _ g' => ip ≠ dp ∧
      ∃ sn', sn'.d.type = type ∧ (κ.dots = true → type = tDir → sn'.bytes = []) ∧
        g' = g.creatingBoth dp ip type sn sn') := by
  refine (ilock_triple (g := g.creating dp ip type sn) hfree.active
    (.inl (g.take_refs_pos ip))).mono ?_
  rintro _ _ ⟨hl, sn', -, hkind, hempty, rfl⟩
  have htype : sn'.d.type = type := hkind rfl
  refine ⟨?_, sn', htype, fun hdots hdir => hempty hdots rfl (htype.trans hdir), rfl⟩
  rintro rfl
  change update g.locks ip _ ip = none at hl
  simp at hl

namespace Ghost

theorem creatingBoth_locks_ip (g : Ghost) (dp ip : Slot) (type : Short) (sn sn' : Snap) :
    (g.creatingBoth dp ip type sn sn').locks ip = some (some sn') := update_self ..

theorem creatingBoth_locks_dp (g : Ghost) (hne : ip ≠ dp) (type : Short) (sn sn' : Snap) :
    (g.creatingBoth dp ip type sn sn').locks dp = some (some sn) := by
  rw [creatingBoth, setLock_locks, update_of_ne (Ne.symm hne)]
  exact update_self ..

theorem creatingBoth_setLock_ip (g : Ghost) (dp ip : Slot) (type : Short) (sn sn' sn₁ : Snap) :
    (g.creatingBoth dp ip type sn sn').setLock ip (some (some sn₁)) =
      g.creatingBoth dp ip type sn sn₁ := setLock_setLock ..

theorem creatingBoth_setLock_dp (g : Ghost) (hne : ip ≠ dp) (type : Short) (sn sn' sn₁ : Snap) :
    (g.creatingBoth dp ip type sn sn').setLock dp (some (some sn₁)) =
      g.creatingBoth dp ip type sn₁ sn' := by
  rw [creatingBoth, ← setLock_comm _ hne, creating, creatingBoth, creating]
  change { ((g.take ip).setLock dp _).setLock dp _ with fresh := _, kind := _ }.setLock ip _ = _
  rw [setLock_setLock]

end Ghost

theorem initInode_triple (hfree : g.Free) (major minor : Short) :
    KTriple κ me (g.creatingBoth dp ip type sn sn') (.lift (initInode ip major minor))
      (fun _ g' => ∃ sn₁, sn₁.d.type = sn'.d.type ∧ sn₁.bytes = sn'.bytes ∧
        g' = g.creatingBoth dp ip type sn sn₁) := by
  have hset : KTriple κ me (g.creatingBoth dp ip type sn sn')
    (.lift (initInode ip major minor)) _ :=
    setFields_triple (g := g.creatingBoth dp ip type sn sn')
      (f := fun d => { d with major := major, minor := minor, nlink := 1 }) hfree.active
        (g.creatingBoth_locks_ip dp ip type sn sn') (fun _ => rfl) (fun _ => rfl)
      fun _ => rfl
  refine hset.mono fun _ g' hg' =>
    ⟨{ sn' with d := { sn'.d with major := major, minor := minor, nlink := 1 } }, rfl, rfl, ?_⟩
  rw [hg', Ghost.creatingBoth_setLock_ip]

/-! ### The entries `.` and `..` -/

theorem key_dot_ne_dotdot : key dotName ≠ key dotdotName := by decide

theorem lookup_dotdot_addTo (inum : ℕ) :
    lookupFrom dotdotName (addTo [] dotName inum) 0 = none := by
  refine lookupFrom_eq_none_iff.mpr fun e he hne hkey => ?_
  rcases mem_splice he with hold | rfl
  · simp at hold
  · rw [key_key] at hkey
    exact key_dot_ne_dotdot hkey

theorem hasDots_addTo {inum dinum : ℕ} (hinum : 0 < inum) (hlt : inum < 2 ^ 16) (hdinum : 0 < dinum)
    (hdlt : dinum < 2 ^ 16) : HasDots inum (addTo (addTo [] dotName inum) dotdotName dinum) := by
  have hnum : (BitVec.ofNat 16 inum).toNat = inum := by
    rw [BitVec.toNat_ofNat, Nat.mod_eq_of_lt hlt]
  have hne {n : ℕ} (hpos : 0 < n) (hn : n < 2 ^ 16) : BitVec.ofNat 16 n ≠ 0 := by
    intro h0
    have := congrArg BitVec.toNat h0
    rw [BitVec.toNat_ofNat, Nat.mod_eq_of_lt hn] at this
    exact hpos.ne' this
  have hone : addTo [] dotName inum = [⟨BitVec.ofNat 16 inum, key dotName⟩] := rfl
  have htwo : addTo (addTo [] dotName inum) dotdotName dinum =
      [⟨BitVec.ofNat 16 inum, key dotName⟩, ⟨BitVec.ofNat 16 dinum, key dotdotName⟩] := by
    rw [hone, addTo, List.findIdx_cons, decide_eq_false (hne hinum hlt)]
    rfl
  rw [htwo]
  exact ⟨_, _, [], rfl, hne hinum hlt, hnum, rfl, hne hdinum hdlt, rfl⟩

theorem linkParent_triple (hfree : g.Free) (hne : ip ≠ dp) :
    KTriple κ me (g.creatingBoth dp ip type sn sn') (.lift do
      modifyInode dp fun d => { d with nlink := d.nlink + 1 }
      iupdate dp
      let s ← get
      return ((s.icache dp).inum, (s.icache ip).inum)) (fun r g' => ∃ sn₁,
        sn₁.d.type = sn.d.type ∧ sn₁.bytes = sn.bytes ∧
        g' = g.creatingBoth dp ip type sn₁ sn' ∧ r.1 < κ.sb.ninodes ∧ r.2 = sn'.inum ∧
        r.2 < κ.sb.ninodes ∧ κ.sb.ninodes ≤ 2 ^ 16 ∧ (κ.dots = true → 0 < r.1 ∧ 0 < r.2)) := by
  refine .lift fun s gs hG hg => ?_
  have hwp := Global.setFields_wp hG hg hfree.active
    (g.creatingBoth_locks_dp hne type sn sn') (f := fun d => { d with nlink := d.nlink + 1 })
    (fun _ => rfl) (fun _ => rfl) fun _ => rfl
  simp only [wp_bind, wp_get, wp_pure] at hwp ⊢
  refine hwp.mono fun _ s₁ hwp₁ => hwp₁.mono fun _ s₂ hG₂ => ?_
  rw [Ghost.creatingBoth_setLock_dp g hne] at hG₂
  generalize hsn₁ : ({ sn with d := { sn.d with nlink := sn.d.nlink + 1 } } : Snap) = sn₁ at hG₂
  have hself := update_self me (g.creatingBoth dp ip type sn₁ sn') gs
  have hdp := g.creatingBoth_locks_dp hne type sn₁ sn'
  have hip := g.creatingBoth_locks_ip dp ip type sn₁ sn'
  have hle : κ.sb.ninodes ≤ 2 ^ 16 := hG₂.sb_eq ▸ hG₂.base.store.disk.ordered.ninodes_le
  refine ⟨_, ⟨sn₁, by rw [← hsn₁], by rw [← hsn₁], rfl, ?_, hG₂.locked_inum hself hip, ?_, hle,
    fun hdots => ?_⟩, hG₂⟩
  · rw [hG₂.locked_inum hself hdp]
    exact hG₂.inum_lt hself hdp
  · rw [hG₂.locked_inum hself hip]
    exact hG₂.inum_lt hself hip
  · rw [hG₂.locked_inum hself hip, hG₂.locked_inum hself hdp]
    exact ⟨hG₂.inum_pos hself hdp hdots, hG₂.inum_pos hself hip hdots⟩

/-- A directory that was empty has the entries `.` and `..` afterwards. -/
theorem createDots_triple (hfree : g.Free) (hne : ip ≠ dp)
    (hempty : κ.dots = true → sn'.bytes = []) :
    KTriple κ me (g.creatingBoth dp ip type sn sn') (createDots dp ip) (fun _ g' => ∃ sn₁ sn₁',
      sn₁.d.type = sn.d.type ∧ sn₁.bytes = sn.bytes ∧ sn₁'.d.type = tDir ∧
        (κ.dots = true → HasDots sn₁'.inum (entriesOf sn₁'.bytes)) ∧
        g' = g.creatingBoth dp ip type sn₁ sn₁') := by
  have hents (hdots : κ.dots = true) : entriesOf sn'.bytes = [] := by
    rw [hempty hdots]
    simp [entriesOf]
  refine (linkParent_triple hfree hne).bind ?_
  rintro ⟨dinum, inum⟩ _ ⟨sn₁, htype, hbytes, rfl, hdlt, rfl, hlt, hle, hpos⟩
  refine (dirlink_triple (g := g.creatingBoth dp ip type sn₁ sn') hfree.active
    (g.creatingBoth_locks_ip dp ip type sn₁ sn') hlt
    fun hdots _ => by rw [hents hdots]; rfl).bind ?_
  rintro (_ | _) g' hg'
  · exact .fail Panic.noConfusion
  obtain ⟨sn₂, rfl, hnum₂, -, hents₂⟩ := hg'
  rw [Ghost.creatingBoth_setLock_ip]
  refine (dirlink_triple (g := g.creatingBoth dp ip type sn₁ sn₂) hfree.active
    (g.creatingBoth_locks_ip dp ip type sn₁ sn₂) hdlt fun hdots _ => ?_).bind ?_
  · rw [hents₂, hents hdots]
    exact lookup_dotdot_addTo _
  rintro (_ | _) g' hg'
  · exact .fail Panic.noConfusion
  obtain ⟨sn₃, rfl, hnum₃, htype₃, hents₃⟩ := hg'
  rw [Ghost.creatingBoth_setLock_ip]
  refine .ret ⟨sn₁, sn₃, htype, hbytes, htype₃, fun hdots => ?_, rfl⟩
  rw [hents₃, hents₂, hents hdots, hnum₃, hnum₂]
  obtain ⟨hdpos, hipos⟩ := hpos hdots
  exact hasDots_addTo hipos (hlt.trans_le hle) hdpos (hdlt.trans_le hle)

/-- The inode has been made: others may rely on it. -/
theorem settle_triple {α : Type} {prog : Kernel P α} {Q : α → Ghost → Prop} (hfree : g.Free)
    (hdots : κ.dots = true → sn'.d.type = tDir → HasDots sn'.inum (entriesOf sn'.bytes))
    (h : KTriple κ me (g.paired dp ip sn sn') prog Q) :
    KTriple κ me (g.creatingBoth dp ip type sn sn') prog Q := by
  refine .ghost (g.paired dp ip sn sn') (fun s gs hG hg => ?_) h
  have hG' : Global κ _ s gs := hG
  have hsnap := (hG'.base.loc me).snap ip sn' (by
    rw [hg]
    exact g.creatingBoth_locks_ip dp ip type sn sn')
  refine hG'.settle (by rw [hg]; exact hfree.active) (by rw [hg]; rfl) hfree.quiet.fresh
    fun hd jp hf htyp => ?_
  rw [hg] at hf
  obtain rfl := Option.some.inj hf
  rw [State.typ, hsnap.dino] at htyp
  rw [State.num, View.dirents_eq, hsnap.bytes, hsnap.inum]
  exact hdots hd htyp

/-! ### `create` -/

theorem createEntry_triple (hfree : g.Free) (hr : 0 < g.refs dp) (hne : ip ≠ dp)
    (hnone : lookupFrom name (entriesOf sn.bytes) 0 = none) :
    KTriple κ me (g.paired dp ip sn sn') (do
      let inum ← .lift do return ((← get).icache ip).inum
      if ← dirlink dp name inum then
        iunlockput me dp
        return some ip
      else
        .fail .createDirlink) (fun r g' => r = some ip ∧
          g' = ((g.drop dp).take ip).setLock ip (some (some sn'))) := by
  have hlip : (g.paired dp ip sn sn').locks ip = some (some sn') := update_self ..
  refine (read_of_triple (R := fun n => n = sn'.inum ∧ n < κ.sb.ninodes)
    fun s gs hG hg => ?_).bind ?_
  · rw [hG.locked_inum hg hlip]
    exact ⟨rfl, hG.inum_lt hg hlip⟩
  rintro inum _ ⟨⟨rfl, hlt⟩, rfl⟩
  refine (dirlink_triple (g := g.paired dp ip sn sn') hfree.active (Ghost.paired_locks_dp hne) hlt
    fun _ _ => hnone).bind ?_
  rintro (_ | _) g' hg'
  · exact .fail Panic.noConfusion
  obtain ⟨sn₁, rfl, -, -, -⟩ := hg'
  rw [Ghost.paired_setLock hne]
  refine .seq _ (iunlockput_quiet (g := g.paired dp ip sn₁ sn') hfree.active
    (fun _ => hfree.quiet.fresh) (by simp [Ghost.paired_locks_dp hne])
    (Ghost.take_refs_mono hr ip)) fun _ => ?_
  exact .ret ⟨rfl, Ghost.paired_up hfree hr hne⟩

/-- What `create` leaves behind: the inode, locked. -/
def CreatePost (g : Ghost) (type : Short) : Option Slot → Ghost → Prop
  | none, g' => g' = g
  | some ip, g' => ∃ sn, sn.d.type = type ∧ g' = (g.take ip).setLock ip (some (some sn))

theorem createFound_triple (hfree : g.Free) (hr : 0 < g.refs dp) (type : Short) :
    KTriple κ me ((g.setLock dp (some (some sn))).take ip) (do
      iunlockput me dp
      ilock ip .ilock
      let d ← .lift do return ((← get).icache ip).d
      if type = tFile ∧ d.type = tFile then
        return some ip
      else
        iunlockput me ip
        return none) (CreatePost (g.drop dp) type) := by
  have htake := hfree.take ip
  have hfree' := (hfree.drop dp).take ip
  refine .seq _ (iunlockput_free htake (Ghost.take_refs_mono hr ip)) fun _ => ?_
  rw [Ghost.drop_take_of_pos hr]
  refine (ilock_triple hfree'.active (.inl (Ghost.take_refs_pos _ ip))).bind ?_
  rintro _ _ ⟨-, sn', -, -, -, rfl⟩
  have hl : (((g.drop dp).take ip).setLock ip (some (some sn'))).locks ip = some (some sn') :=
    update_self ..
  refine (readFields_triple hl).bind ?_
  rintro _ _ ⟨rfl, rfl⟩
  split_ifs with hfile
  · exact .ret ⟨sn', hfile.2.trans hfile.1.symm, rfl⟩
  · exact .seq _ (iunlockput_free hfree' (Ghost.take_refs_pos _ ip)) fun _ =>
      .ret (Ghost.drop_take ..)

theorem createAbsent_triple (hfree : g.Free) (hr : 0 < g.refs dp) (htype : type ≠ 0)
    (hnone : lookupFrom name (entriesOf sn.bytes) 0 = none) (major minor : Short) :
    KTriple κ me (g.setLock dp (some (some sn))) (do
      let ip ← .lift do ialloc ((← get).icache dp).dev type
      ilock ip .createNew
      .lift (initInode ip major minor)
      if type = tDir then
        createDots dp ip
      let inum ← .lift do return ((← get).icache ip).inum
      if ← dirlink dp name inum then
        iunlockput me dp
        return some ip
      else
        .fail .createDirlink) (CreatePost (g.drop dp) type) := by
  have hentry {sn₁ sn₁' : Snap} {ip : Slot} (hne : ip ≠ dp) (hbytes : sn₁.bytes = sn.bytes)
      (ht : sn₁'.d.type = type) : KTriple κ me (g.paired dp ip sn₁ sn₁') (do
        let inum ← .lift do return ((← get).icache ip).inum
        if ← dirlink dp name inum then
          iunlockput me dp
          return some ip
        else
          .fail .createDirlink) (CreatePost (g.drop dp) type) := by
    refine (createEntry_triple hfree hr hne (by rw [hbytes]; exact hnone)).mono ?_
    rintro _ _ ⟨rfl, rfl⟩
    exact ⟨sn₁', ht, rfl⟩
  refine .bind (ialloc_triple hfree htype) ?_
  rintro ip _ rfl
  refine (ilock_createNew hfree).bind ?_
  rintro _ _ ⟨hne, sn₀, ht₀, hempty, rfl⟩
  refine (initInode_triple hfree major minor).bind ?_
  rintro _ _ ⟨sn', ht', hbytes', rfl⟩
  split_ifs with htdir
  · refine (createDots_triple hfree hne fun hdots => by
      rw [hbytes', hempty hdots htdir]).bind ?_
    rintro _ _ ⟨sn₁, sn₁', -, hbytes, ht₁', hdots, rfl⟩
    exact settle_triple hfree (fun hd _ => hdots hd) (hentry hne hbytes (ht₁'.trans htdir.symm))
  · refine settle_triple hfree (fun _ hd => ?_) (hentry hne rfl (ht'.trans ht₀))
    exact absurd (ht₀.symm.trans (ht'.symm.trans hd)) htdir

/-- `create` returns an inode that is locked, of the type that was asked for, or nothing. -/
theorem create_triple (path : Str) (hfree : g.Free) (htype : type ≠ 0)
    (major minor : Short) :
    KTriple κ me g (create me path type major minor) (CreatePost g type) := by
  refine (nameiparent_triple path hfree).bind ?_
  rintro (_ | ⟨dp, name⟩) g' hg'
  · exact .ret hg'
  subst hg'
  have hfree' := hfree.take dp
  have hr := g.take_refs_pos dp
  have hdrop := g.drop_take dp
  refine (ilock_triple hfree'.active (.inl hr)).bind ?_
  rintro _ _ ⟨-, sn, -, -, -, rfl⟩
  refine (dirlookup_triple (g := (g.take dp).setLock dp (some (some sn))) hfree'.active
    (update_self ..) name).bind ?_
  rintro (_ | ⟨ip, off⟩) g' ⟨-, hg'⟩
  · obtain ⟨rfl, hnone⟩ := hg'
    have habsent : KTriple κ me ((g.take dp).setLock dp (some (some sn))) _ _ :=
      createAbsent_triple hfree' hr htype hnone major minor
    rwa [hdrop] at habsent
  · obtain ⟨rfl, -⟩ := hg'
    have hfound : KTriple κ me (((g.take dp).setLock dp (some (some sn))).take ip) _ _ :=
      createFound_triple hfree' hr type
    rwa [hdrop] at hfound

end Dave.Fs
