import Dave.Fs.Global

/-!
# Following paths and changing directories

The invariant of all processes is kept by the functions that look names up and by those that store
and erase entries.
-/

namespace Dave.Fs

open Function Interleave

variable {P : Type} {s s' : State P} {ip jp dp : Slot} {g : Ghost} {name : Str} {sn : Snap}

/-- The process is in a call, holds no lock and has taken over nothing of the process table. -/
structure Ghost.Free (g : Ghost) : Prop where
  active : g.active = true
  quiet : g.Quiet
  locks : ∀ ip, g.locks ip = none
  plain : g.Plain

namespace Ghost

theorem Free.take (h : g.Free) (ip : Slot) : (g.take ip).Free :=
  ⟨h.active, h.quiet.take ip, h.locks, h.plain⟩

theorem Free.drop (h : g.Free) (ip : Slot) : (g.drop ip).Free :=
  ⟨h.active, h.quiet.drop ip, h.locks, h.plain⟩

theorem Free.unlock (h : g.Free) (ip : Slot) (o : Option (Option Snap)) :
    (g.setLock ip o).quiet.setLock ip none = g := by
  change (g.quiet.setLock ip o).setLock ip none = g
  rw [setLock_setLock, h.quiet.quiet_eq, setLock_of_eq (h.locks ip)]

theorem begin_free : Ghost.begin.Free := ⟨rfl, ⟨rfl, rfl⟩, fun _ => rfl, rfl, rfl⟩

theorem take_comm (g : Ghost) (ip jp : Slot) : (g.take ip).take jp = (g.take jp).take ip := by
  by_cases h : ip = jp
  · rw [h]
  · simp only [Ghost.take, Ghost.setRefs]
    rw [update_of_ne (Ne.symm h), update_of_ne h, update_comm h]

theorem drop_take_of_pos (h : 0 < g.refs ip) (jp : Slot) :
    (g.take jp).drop ip = (g.drop ip).take jp := by
  by_cases hj : ip = jp
  · rw [← hj, drop_take, take_drop h]
  · simp only [Ghost.take, Ghost.drop, Ghost.setRefs]
    rw [update_of_ne hj, update_of_ne (Ne.symm hj), update_comm hj]

end Ghost

variable [DecidableEq P] [Fintype P] {κ : Scope} {old : History} {me : P}

theorem record_triple (a : Action) :
    KTriple κ me g (.lift (modify fun s => s.record a)) (fun _ g' => g' = g) :=
  .lift fun s gs hG hg => ⟨g, rfl, by
    rw [← hg, update_eq_self]
    exact Global.record hG a⟩

theorem read_triple {α : Type} (f : State P → α) :
    KTriple κ me g (.lift do return f (← get)) (fun _ g' => g' = g) :=
  .lift fun s gs hG hg => ⟨g, rfl, by rwa [← hg, update_eq_self]⟩

/-! ### Looking names up -/

/-- The snapshot of the directory tells what is found. -/
theorem Global.dirlookup_wp {gs : P → Ghost} (h : Global κ old s gs) (hg : gs me = g)
    (hact : g.active = true) (hl : g.locks dp = some (some sn)) (name : Str) :
    Wp (kernelLogic P κ).E (dirlookup dp name) (fun r s' => sn.d.type = tDir ∧ match r with
      | none => s' = s ∧ lookupFrom name (entriesOf sn.bytes) 0 = none
      | some (ip, off) => lookupFrom name (entriesOf sn.bytes) 0 = some (s'.num ip, off) ∧
        Global κ old s' (update gs me (g.take ip))) s := by
  subst hg
  have hbase := h.base
  have hd := hbase.snap_d hl
  have hpos := hbase.ref_pos_of_lock (((hbase.loc me).lock dp).mpr (by rw [hl]; simp))
  have hbytes := ((hbase.loc me).snap dp sn hl).bytes
  by_cases hdir : sn.d.type = tDir
  · have hopen := hbase.openDir hl hdir
    refine (dirlookup_spec hopen (hbase.store.cache.dev_eq dp hpos) name
      fun _ => Panic.noConfusion).mono fun r s' hr => ⟨hdir, ?_⟩
    rw [View.dirents_eq, hbytes] at hr
    split at hr
    · rename_i hnone
      obtain ⟨rfl, rfl⟩ := hr
      exact ⟨rfl, hnone⟩
    · rename_i i off hsome
      obtain ⟨ip, rfl, hgot⟩ := hr
      refine ⟨by rw [State.num, hgot.inum]; exact hsome, h.got rfl ?_ hact hgot⟩
      obtain ⟨k, e, hk, -, -, -, hi⟩ := exists_of_lookupFrom hsome
      rw [← hbytes, ← View.dirents_eq] at hk
      rw [← hi]
      refine (hbase.dirs _ ?_).2 e (List.mem_of_getElem? hk)
      rw [← hopen.loaded.copy]
      exact hopen.type_eq
  · simp only [dirlookup, wp_bind, wp_get]
    rw [if_pos (by rw [hd]; exact hdir)]
    exact Panic.noConfusion

theorem dirlookup_triple (hact : g.active = true) (hl : g.locks dp = some (some sn)) (name : Str) :
    KTriple κ me g (.lift (dirlookup dp name)) (fun r g' => sn.d.type = tDir ∧ match r with
      | none => g' = g ∧ lookupFrom name (entriesOf sn.bytes) 0 = none
      | some (ip, _) => g' = g.take ip ∧ lookupFrom name (entriesOf sn.bytes) 0 ≠ none) := by
  refine .lift fun s gs hG hg => (Global.dirlookup_wp hG hg hact hl name).mono fun r s' hr => ?_
  obtain ⟨hdir, hr⟩ := hr
  split at hr
  · obtain ⟨rfl, hnone⟩ := hr
    exact ⟨g, ⟨hdir, rfl, hnone⟩, by rwa [← hg, update_eq_self]⟩
  · exact ⟨_, ⟨hdir, rfl, by rw [hr.1]; simp⟩, hr.2⟩

/-- What following a path leaves behind: a reference to the inode in place of the one it began
with. -/
def PathPost (g : Ghost) : Option (Slot × Str) → Ghost → Prop
  | none, g' => g' = g
  | some (dp, _), g' => g' = g.take dp

/-- The loop holds one lock at a time, and keeps one reference. -/
theorem namexLoop_triple {parent : Bool} {elems : List Str} (hfree : g.Free) (hr : 0 < g.refs ip) :
    KTriple κ me g (namexLoop me parent elems ip) (PathPost (g.drop ip)) := by
  induction elems generalizing g ip with
  | nil =>
    rw [namexLoop]
    split_ifs with hp
    · refine (iput_triple hfree.active (fun _ => hfree.quiet.fresh) hr).bind fun _ _ hg => .ret ?_
      rw [hg.1, hfree.quiet.quiet_eq]
      rfl
    · exact .ret (Ghost.take_drop hr).symm
  | cons name rest ih =>
    rw [namexLoop]
    refine (ilock_triple hfree.active (.inl hr)).bind ?_
    rintro _ _ ⟨-, sn, -, -, -, rfl⟩
    refine .seq _ (read_triple _) fun d => ?_
    have hput : KTriple κ me (g.setLock ip (some (some sn))) (iunlockput me ip)
        (fun _ g' => g' = g.drop ip) := by
      refine (iunlockput_quiet (g := g.setLock ip (some (some sn))) hfree.active
        (fun _ => hfree.quiet.fresh) (by simp) hr).mono fun _ _ hg => ?_
      rw [hg, hfree.unlock]
    split_ifs with hdir hlast
    · exact hput.bind fun _ _ hg => .ret hg
    · refine .seq _ (iunlock_quiet (g := g.setLock ip (some (some sn))) hfree.active
        (fun _ => hfree.quiet.fresh) (by simp)) fun _ => .ret ?_
      rw [hfree.unlock]
      exact (Ghost.take_drop hr).symm
    · refine (dirlookup_triple (g := g.setLock ip (some (some sn))) hfree.active
        (update_self ..) name).bind ?_
      rintro (_ | ⟨next, off⟩) g' ⟨-, hg'⟩
      · rw [hg'.1]
        exact hput.bind fun _ _ hg => .ret hg
      · obtain ⟨rfl, -⟩ := hg'
        -- the reference to the entry is kept, that to the directory is dropped
        have htake := hfree.take next
        have hrt : 0 < (g.take next).refs ip := Ghost.take_refs_mono hr next
        refine .seq _ (iunlockput_quiet (g := (g.take next).setLock ip (some (some sn)))
          htake.active (fun _ => htake.quiet.fresh) (by simp) hrt) fun _ => ?_
        rw [htake.unlock, Ghost.drop_take_of_pos hr]
        have hpos : 0 < ((g.drop ip).take next).refs next := by simp [Ghost.take]
        refine (ih ((hfree.drop ip).take next) hpos).mono fun r g' hr' => ?_
        rwa [Ghost.drop_take] at hr'

theorem namex_triple {parent : Bool} (path : Str) (hfree : g.Free) :
    KTriple κ me g (namex me path parent) (PathPost g) := by
  refine .bind (Q := fun ip g' => g' = g.take ip) (.lift fun s gs hG hg => ?_) ?_
  · have hG' : Global κ _ s gs := hG
    have hbase := hG'.base
    split_ifs
    · refine (iget_spec rootIno fun _ => Panic.noConfusion).mono fun ip s' hgot => ⟨_, rfl, ?_⟩
      exact hG'.got hg hbase.store.disk.ordered.root hfree.active hgot
    · simp only [wp_bind, wp_get]
      split
      · rename_i cwd hcwd
        have hown : (owned s gs me).cwd = some cwd := by
          rw [owned, hg, hfree.plain.own, hcwd]
        have hpos := hbase.table.ref_pos_of_cwd hown
        simp only [idup, wp_bind, wp_modify, wp_pure]
        exact ⟨_, rfl, hG'.got hg (hbase.store.cache.inum_lt cwd hpos) hfree.active
          (.hit hpos rfl)⟩
      · exact Panic.noConfusion
  · rintro ip _ rfl
    have hpos : 0 < (g.take ip).refs ip := by simp [Ghost.take]
    refine (namexLoop_triple (hfree.take ip) hpos).mono fun r g' hr => ?_
    rwa [Ghost.drop_take] at hr

theorem nameiparent_triple (path : Str) (hfree : g.Free) :
    KTriple κ me g (nameiparent me path) (PathPost g) :=
  namex_triple path hfree

theorem namei_triple (path : Str) (hfree : g.Free) : KTriple κ me g (namei me path) (fun r g' =>
      match r with
      | none => g' = g
      | some ip => g' = g.take ip) := by
  refine (namex_triple path hfree).bind ?_
  rintro (_ | ⟨ip, name⟩) g' hg'
  · exact .ret hg'
  · exact .ret hg'

/-! ### Changing inodes -/

namespace Global

variable {gs : P → Ghost} {g' : Ghost}

omit [DecidableEq P] [Fintype P] in
theorem types_of_ne {i : ℕ} (hself : (s'.view.dino i).type = (s.view.dino i).type)
    (hne : ∀ j, j ≠ i → s'.view.dino j = s.view.dino j) (x : ℕ) :
    (s'.view.dino x).type = (s.view.dino x).type := by
  by_cases hx : x = i
  · rw [hx, hself]
  · rw [hne x hx]

variable (h : Global κ old s gs)

include h

theorem change (hg : gs me = g) (hact : g.active = true)
    (hl : g.locks ip = some (some sn)) (htouch : Touch ip s s') (hstore : StoreOk s')
    (hdirs : DirsOk s')
    (htype : (s'.view.dino (s.icache ip).inum).type = (s.view.dino (s.icache ip).inum).type)
    (hdino : ∀ j, j ≠ (s.icache ip).inum → s'.view.dino j = s.view.dino j)
    (hbytes : ∀ j, j ≠ (s.icache ip).inum → s'.view.bytes j = s.view.bytes j)
    (hstep : s'.dir (s.num ip) = s.dir (s.num ip) ∨
      DirStep (s.dir (s.num ip)) (s'.dir (s.num ip))) :
    Global κ old s' (update gs me (g.setLock ip (some (some (s'.snap ip))))) where
  sb_eq := htouch.sb.trans h.sb_eq
  base := by
    subst hg
    exact h.base.change hact hl htouch hstore hdirs htype hdino hbytes
  made := by
    refine h.made_step (fun p jp hf => ?_) (hg ▸ .setLock _ _ _)
    rw [State.typ, State.num, htouch.num]
    exact types_of_ne htype hdino _
  dotted := by
    refine h.dotted_step (fun jp _ => htouch.num jp) (fun h0 => ?_) (fun i hi => ?_)
      (hg ▸ .setLock _ _ _)
    · rw [types_of_ne htype hdino, h0]
    · rw [types_of_ne htype hdino] at hi
      refine ⟨hi, fun hd => ?_⟩
      by_cases hip : i = s.num ip
      · subst hip
        rcases hstep with heq | hstep
        · rwa [show s'.view.dirents (s.num ip) = s.view.dirents (s.num ip) from
            (Prod.mk.inj heq).2]
        · rw [State.dir, State.dir, htype, hi] at hstep
          exact hd.step hstep
      · rwa [View.dirents_congr (hbytes i hip)]
  past i := by
    refine (h.past i).trans ?_
    by_cases hip : i = s.num ip
    · subst hip
      rcases hstep with heq | hstep
      · rw [heq]
      · exact .single hstep
    · rw [State.dir_congr (by rw [hdino i hip]) (hbytes i hip)]

theorem fieldsSet (hg : gs me = g) (hact : g.active = true)
    (hl : g.locks ip = some (some sn)) {f : Dinode → Dinode} (ht : ∀ d, (f d).type = d.type)
    (hset : FieldsSet ip f s s') :
    Global κ old s' (update gs me
      (g.setLock ip (some (some { sn with d := f sn.d })))) := by
  have hl' : (gs me).locks ip = some (some sn) := by rw [hg, hl]
  have hbase := h.base
  have hload := hbase.loaded hl'
  have hsnap := (hbase.loc me).snap ip sn hl'
  have hpos := hbase.ref_pos_of_lock (((hbase.loc me).lock ip).mpr (by rw [hl']; simp))
  have hdino : s'.view.dino (s.icache ip).inum = f sn.d := by
    rw [hset.view, View.setDino_dino, update_self, hbase.snap_d hl']
  have htype := types_of_ne (by rw [hdino, ht, hsnap.dino]) hset.dino_of_ne
  have hsn : s'.snap ip = { sn with d := f sn.d } := by
    rw [State.snap, hset.touch.inum, hdino, hset.bytes, hsnap.bytes, hsnap.inum]
  rw [← hsn]
  refine h.change hg hact hl hset.touch (hset.storeOk hbase.store hpos)
    (hset.dirsOk hbase.dirs ?_) (htype _) hset.dino_of_ne (fun j _ => hset.bytes j)
    (.inl (State.dir_congr (htype _) (hset.bytes _)))
  rw [ht, hload.copy]

theorem setFields_wp (hg : gs me = g) (hact : g.active = true)
    (hl : g.locks ip = some (some sn)) {f : Dinode → Dinode} (ht : ∀ d, (f d).type = d.type)
    (hsz : ∀ d, (f d).size = d.size) (ha : ∀ d, (f d).addrs = d.addrs) :
    Wp (kernelLogic P κ).E (do modifyInode ip f; iupdate ip) (fun _ s' =>
      Global κ old s' (update gs me
        (g.setLock ip (some (some { sn with d := f sn.d }))))) s := by
  have hl' : (gs me).locks ip = some (some sn) := by rw [hg, hl]
  exact (setFields_spec h.base.store.disk (h.base.loaded hl') ht hsz ha).mono
    fun _ s' hset => h.fieldsSet hg hact hl ht hset

theorem entered (hg : gs me = g) (hact : g.active = true)
    (hl : g.locks dp = some (some sn)) (hdir : sn.d.type = tDir) {j : ℕ} {de : Dirent}
    (he : Entered dp s s' j de) (hde : de.inum.toNat < κ.sb.ninodes)
    (hstep : DirStep (tDir, entriesOf sn.bytes) (tDir, splice (entriesOf sn.bytes) j [de])) :
    Global κ old s' (update gs me (g.setLock dp (some (some (s'.snap dp))))) ∧
      entriesOf (s'.snap dp).bytes = splice (entriesOf sn.bytes) j [de] ∧
      (s'.snap dp).d.type = tDir ∧ (s'.snap dp).inum = sn.inum := by
  have hl' : (gs me).locks dp = some (some sn) := by rw [hg, hl]
  have hbase := h.base
  have hsnap := (hbase.loc me).snap dp sn hl'
  have hpos := hbase.ref_pos_of_lock (((hbase.loc me).lock dp).mpr (by rw [hl']; simp))
  have hdir' : (s.view.dino (s.icache dp).inum).type = tDir := by rw [hsnap.dino, hdir]
  have htype : (s'.view.dino (s.icache dp).inum).type = tDir := by rw [he.fields]; exact hdir'
  refine ⟨h.change hg hact hl he.touch (he.storeOk hbase.store hpos)
    (he.dirsOk hbase.dirs hdir' (by rwa [h.sb_eq])) (htype.trans hdir'.symm) he.dino_of_ne
    he.bytes_of_ne (.inr ?_), ?_, ?_, ?_⟩
  · rw [State.dir, State.dir, htype, hdir', he.dirents, View.dirents_eq, hsnap.bytes]
    exact hstep
  · rw [← hsnap.bytes, ← View.dirents_eq, State.snap, ← View.dirents_eq, he.touch.inum, he.dirents]
  · rw [State.snap, he.touch.inum]
    exact htype
  · rw [State.snap, he.touch.inum, hsnap.inum]

end Global

theorem setFields_triple (hact : g.active = true) (hl : g.locks ip = some (some sn))
    {f : Dinode → Dinode} (ht : ∀ d, (f d).type = d.type)
    (hsz : ∀ d, (f d).size = d.size) (ha : ∀ d, (f d).addrs = d.addrs) :
    KTriple κ me g (.lift do modifyInode ip f; iupdate ip)
      (fun _ g' => g' = g.setLock ip (some (some { sn with d := f sn.d }))) :=
  .lift fun _ _ hG hg => (Global.setFields_wp hG hg hact hl ht hsz ha).mono
    fun _ _ hG' => ⟨_, rfl, hG'⟩

/-- The entry is stored in a directory that is locked and has none with this name. -/
theorem addEntry_triple (hact : g.active = true) (hl : g.locks dp = some (some sn))
    (hdir : sn.d.type = tDir) {inum : ℕ} (hinum : inum < κ.sb.ninodes)
    (hnone : lookupFrom name (entriesOf sn.bytes) 0 = none) :
    KTriple κ me g (.lift (addEntry dp name inum)) (fun _ g' => ∃ sn',
      g' = g.setLock dp (some (some sn')) ∧ sn'.inum = sn.inum ∧ sn'.d.type = tDir ∧
      entriesOf sn'.bytes = addTo (entriesOf sn.bytes) name inum) := by
  refine .lift fun s gs hG hg => ?_
  have hG' : Global κ _ s gs := hG
  have hbase := hG'.base
  have hl' : (gs me).locks dp = some (some sn) := by rw [hg, hl]
  have hnum : (BitVec.ofNat 16 inum).toNat = inum := by
    have := hbase.store.disk.ordered.ninodes_le
    rw [hG'.sb_eq] at this
    rw [BitVec.toNat_ofNat, Nat.mod_eq_of_lt (by omega)]
  refine (addEntry_spec (hbase.openDir hl' hdir) name inum (fun _ _ => Panic.noConfusion)
    fun _ _ => Panic.noConfusion).mono fun _ s' he => ?_
  rw [View.dirents_eq, ((hbase.loc me).snap dp sn hl').bytes] at he
  obtain ⟨h1, h2, h3, h4⟩ := hG'.entered hg hact hl hdir he (by rwa [hnum])
    (.link _ name inum hnone)
  exact ⟨_, ⟨s'.snap dp, rfl, h4, h3, h2⟩, h1⟩

/-- `dirlink` in a directory that has been locked. When a directory is being made, the name must be
known to be absent. -/
theorem dirlink_triple (hact : g.active = true) (hl : g.locks dp = some (some sn))
    {inum : ℕ} (hinum : inum < κ.sb.ninodes)
    (hnone : κ.dots = true → g.fresh ≠ none → lookupFrom name (entriesOf sn.bytes) 0 = none) :
    KTriple κ me g (dirlink dp name inum) (fun r g' =>
      if r then ∃ sn', g' = g.setLock dp (some (some sn')) ∧ sn'.inum = sn.inum ∧
        sn'.d.type = tDir ∧ entriesOf sn'.bytes = addTo (entriesOf sn.bytes) name inum
      else g' = g.quiet) := by
  refine (dirlookup_triple hact hl name).bind ?_
  rintro (_ | ⟨ip, off⟩) g' ⟨hdir, hg'⟩
  · obtain ⟨rfl, habsent⟩ := hg'
    exact (addEntry_triple hact hl hdir hinum habsent).bind fun _ g' hg' =>
      .ret (by rwa [if_pos rfl])
  · obtain ⟨rfl, hsome⟩ := hg'
    refine (iput_triple (g := g.take ip) hact (fun hdots => ?_) (g.take_refs_pos ip)).bind ?_
    · exact not_not.mp fun hf => hsome (hnone hdots hf)
    rintro _ _ ⟨rfl, -⟩
    refine .ret ?_
    rw [if_neg (by simp)]
    exact g.quiet.drop_take ip

end Dave.Fs
