import Dave.Fs.Lookup

/-!
# A process that runs alone

What the functions of the inode layer do when one process runs from beginning to end. The process
takes and gives up references to entries of the inode cache and locks inodes; nobody else does
anything meanwhile.
-/

namespace Dave.Fs

open Function Prog

variable {P : Type} {s s' s'' : State P} {me : P} {ip jp : Slot} {F : Stop Panic Slot → Prop}

/-! ### Single calls -/

theorem wpx_ilock (hs : StoreOk s) (hpos : 0 < (s.icache ip).ref)
    (hlock : (s.icache ip).lock = none) (ht : (s.view.dino (s.icache ip).inum).type ≠ 0)
    (site : Site) : Wpx me F (ilock ip site) (fun _ s' => s' = s.lockRead ip me) s := by
  have hfill := fill_locked (E := fun e => F (.panic e)) hs hpos me fun h => absurd h ht
  simp only [ilock, wpx_bind, wpx_lift, wp_bind, wp_get, wp_ite, wp_throw]
  rw [if_neg (by omega)]
  simp only [wp_pure]
  rw [wpx_acq hlock]
  exact hfill.mono fun _ s' hs' => hs'.1

theorem wpx_iunlock [DecidableEq P] (hlock : (s.icache ip).lock = some me)
    (hpos : 0 < (s.icache ip).ref) :
    Wpx me F (iunlock me ip)
      (fun _ s' => s' = s.setInode ip { s.icache ip with lock := none }) s := by
  simp only [iunlock, wpx_bind, wpx_lift, wp_bind, wp_get, wp_ite, wp_throw]
  rw [if_neg (by simp [hlock]; omega)]
  exact rfl

theorem wpx_iput (hlock : (s.icache ip).lock = none)
    (hkeep : (s.icache ip).valid = true → (s.icache ip).d.nlink = 0 → (s.icache ip).ref ≠ 1) :
    Wpx me F (iput ip) (fun _ s' => s' = (s.record .iput).setInode ip
      { s.icache ip with ref := (s.icache ip).ref - 1 }) s := by
  simp only [iput, wpx_bind, wpx_lift, wp_modify]
  rw [wpx_acq hlock]
  have hfree : iputFree ip (Locks.setOwner (s.record .iput) ip (some me)) =
      .ok ((), Locks.setOwner (s.record .iput) ip (some me)) := by
    refine eq_ok_of_wp ?_
    simp only [iputFree, wp_bind, wp_get, wp_ite]
    split_ifs with hfree href
    · simp only [Locks.setOwner, State.setInode_icache, update_self,
        State.record_icache] at hfree href
      exact absurd href (hkeep hfree.1 hfree.2)
    · exact ⟨trivial, rfl⟩
    · exact ⟨trivial, rfl⟩
  rw [wp_of_ok hfree]
  simp only [wpx_rel, wpx_yield, iputDrop, wp_modify]
  simp only [Locks.setOwner, State.setInode_setInode, State.setInode_icache, update_self,
    State.record_icache]
  rw [← hlock]

/-! ### The references and the locks of the process -/

theorem Got.inum_of_pos {i : ℕ} (h : Got s i ip s') (hpos : 0 < (s.icache jp).ref) :
    (s'.icache jp).inum = (s.icache jp).inum := by
  by_cases hj : jp = ip
  · subst hj
    rw [h.of_ref_pos hpos]
  · rw [h.of_ne hj]

/-- In state `s'` a process has, in addition to what there was in the state `s`, `extra ip`
references to entry `ip` of the inode cache. It holds the locks of the entries in `lk`, and nobody
holds another. -/
structure Alone (me : P) (s : State P) (extra : Slot → ℕ) (lk : Finset Slot) (s' : State P) :
    Prop where
  sb : s'.sb = s.sb
  ftable : s'.ftable = s.ftable
  proc : s'.proc = s.proc
  store : StoreOk s'
  lock : ∀ jp, (s'.icache jp).lock = if jp ∈ lk then some me else none
  ref : ∀ jp, (s'.icache jp).ref = (s.icache jp).ref + extra jp
  inum : ∀ jp, 0 < (s.icache jp).ref → (s'.icache jp).inum = (s.icache jp).inum

/-- The disk is as it was, nothing has been logged, and no transaction has begun or ended. -/
structure Calm (s s' : State P) : Prop where
  sb : s'.sb = s.sb
  disk : s'.disk = s.disk
  logged : s'.logged = s.logged
  ops : s'.ops = s.ops

namespace Calm

theorem refl (s : State P) : Calm s s := ⟨rfl, rfl, rfl, rfl⟩

theorem trans (h : Calm s s') (h' : Calm s' s'') : Calm s s'' :=
  ⟨h'.sb.trans h.sb, h'.disk.trans h.disk, h'.logged.trans h.logged, h'.ops.trans h.ops⟩

theorem view (h : Calm s s') : s'.view = s.view := by
  have hdinode : s'.dinode = s.dinode := by
    funext i
    rw [State.dinode, State.dinode, h.disk, h.sb]
  have hbit : s'.bit = s.bit := by
    funext b
    rw [State.bit, State.bit, h.disk, h.sb]
  rw [State.view, State.view, h.sb, hdinode, hbit, h.disk]

theorem setInode (s : State P) (ip : Slot) (x : Inode P) : Calm s (s.setInode ip x) :=
  ⟨rfl, rfl, rfl, rfl⟩

end Calm

/-- At most the entry `ip` of the inode cache has changed, and it stands for the same inode. -/
structure OnlyEntry (ip : Slot) (s s' : State P) : Prop where
  of_ne : ∀ jp, jp ≠ ip → s'.icache jp = s.icache jp
  self : (s'.icache ip).inum = (s.icache ip).inum

namespace OnlyEntry

theorem inum (h : OnlyEntry ip s s') (jp : Slot) : (s'.icache jp).inum = (s.icache jp).inum := by
  by_cases hj : jp = ip
  · rw [hj, h.self]
  · rw [h.of_ne jp hj]

theorem trans (h : OnlyEntry ip s s') (h' : OnlyEntry ip s' s'') : OnlyEntry ip s s'' :=
  ⟨fun jp hj => (h'.of_ne jp hj).trans (h.of_ne jp hj), h'.self.trans h.self⟩

end OnlyEntry

theorem Got.calm {i : ℕ} (h : Got s i ip s') : Calm s s' := by
  cases h <;> exact .setInode ..

namespace Alone

variable {extra : Slot → ℕ} {lk : Finset Slot}

theorem refl (hs : StoreOk s) (hlock : ∀ jp, (s.icache jp).lock = none) :
    Alone me s (fun _ => 0) ∅ s :=
  ⟨rfl, rfl, rfl, hs, hlock, fun _ => rfl, fun _ _ => rfl⟩

variable {extra' : Slot → ℕ}

variable {lk' : Finset Slot}

variable (h : Alone me s extra lk s')

include h

theorem congr (he : ∀ jp, extra jp = extra' jp) :
    Alone me s extra' lk s' := funext he ▸ h

theorem congr_lk (he : lk = lk') : Alone me s extra lk' s' := he ▸ h

theorem lock_none (hip : ip ∉ lk) : (s'.icache ip).lock = none :=
  (h.lock ip).trans (if_neg hip)

theorem lock_some (hip : ip ∈ lk) : (s'.icache ip).lock = some me :=
  (h.lock ip).trans (if_pos hip)

theorem ref_pos (hpos : 0 < extra ip) : 0 < (s'.icache ip).ref := by
  rw [h.ref]
  omega

theorem step (ip : Slot) (hsb : s''.sb = s'.sb) (hft : s''.ftable = s'.ftable)
    (hproc : s''.proc = s'.proc) (hstore : StoreOk s'')
    (hne : ∀ jp, jp ≠ ip → s''.icache jp = s'.icache jp)
    (hlock : (s''.icache ip).lock = if ip ∈ lk' then some me else none)
    (hlk : ∀ jp, jp ≠ ip → (jp ∈ lk' ↔ jp ∈ lk))
    (href : (s''.icache ip).ref = (s.icache ip).ref + extra' ip)
    (hextra : ∀ jp, jp ≠ ip → extra' jp = extra jp)
    (hinum : 0 < (s'.icache ip).ref → (s''.icache ip).inum = (s'.icache ip).inum) :
    Alone me s extra' lk' s'' where
  sb := hsb.trans h.sb
  ftable := hft.trans h.ftable
  proc := hproc.trans h.proc
  store := hstore
  lock jp := by
    by_cases hj : jp = ip
    · rw [hj, hlock]
    · rw [hne jp hj, h.lock, if_congr (hlk jp hj) rfl rfl]
  ref jp := by
    by_cases hj : jp = ip
    · rw [hj, href]
    · rw [hne jp hj, h.ref, hextra jp hj]
  inum jp hpos := by
    by_cases hj : jp = ip
    · subst hj
      rw [hinum (by rw [h.ref]; omega), h.inum jp hpos]
    · rw [hne jp hj, h.inum jp hpos]

theorem got {i : ℕ} (hgot : Got s' i ip s'') (hi : i < s.sb.ninodes) :
    Alone me s (update extra ip (extra ip + 1)) lk s'' := by
  refine h.step ip hgot.sb hgot.ftable hgot.proc (hgot.storeOk h.store (h.sb ▸ hi))
    (fun jp hj => hgot.of_ne hj) (hgot.lock.trans (h.lock ip)) (fun _ _ => .rfl) ?_
    (fun jp hj => update_of_ne hj ..) hgot.inum_of_pos
  rw [hgot.ref, h.ref, update_self, Nat.add_assoc]

theorem locked (hpos : 0 < (s'.icache ip).ref) (ht : (s'.view.dino (s'.icache ip).inum).type ≠ 0) :
    Alone me s extra (insert ip lk) (s'.lockRead ip me) := by
  refine h.step ip rfl rfl rfl (h.store.lockRead hpos ht me) (fun jp hj => ?_) ?_
    (fun jp hj => ?_) ?_
    (fun _ _ => rfl) fun _ => ?_
  · exact update_of_ne hj ..
  · simp [State.lockRead]
  · simp [hj]
  · simp [State.lockRead, h.ref]
  · simp [State.lockRead]

theorem unlocked (hpos : 0 < (s'.icache ip).ref) :
    Alone me s extra (lk.erase ip) (s'.setInode ip { s'.icache ip with lock := none }) := by
  have hstore : StoreOk (s'.setInode ip { s'.icache ip with lock := none }) :=
    h.store.setInode hpos rfl rfl le_rfl fun hv =>
      ⟨(h.store.cache.loaded ip hpos hv).copy, (h.store.cache.loaded ip hpos hv).type_ne⟩
  refine h.step ip rfl rfl rfl hstore (fun jp hj => ?_) ?_ (fun jp hj => ?_) ?_ (fun _ _ => rfl)
    fun _ => ?_
  · exact update_of_ne hj ..
  · simp
  · simp [hj]
  · simp [h.ref]
  · simp

theorem put (hpos : 0 < extra ip) :
    Alone me s (update extra ip (extra ip - 1)) lk
      ((s'.record .iput).setInode ip { s'.icache ip with ref := (s'.icache ip).ref - 1 }) := by
  have href := h.ref_pos hpos
  have hstore : StoreOk ((s'.record .iput).setInode ip
      { s'.icache ip with ref := (s'.icache ip).ref - 1 }) := by
    have hs : StoreOk (s'.record .iput) := h.store.congr rfl rfl rfl
    exact hs.setInode href rfl rfl (Nat.sub_le _ _) fun hv =>
      ⟨(h.store.cache.loaded ip href hv).copy, (h.store.cache.loaded ip href hv).type_ne⟩
  refine h.step ip rfl rfl rfl hstore (fun jp hj => ?_) ?_ (fun jp hj => .rfl) ?_
    (fun jp hj => update_of_ne hj ..) fun _ => ?_
  · exact update_of_ne hj ..
  · simp [h.lock]
  · simp only [State.setInode_icache, update_self, h.ref]
    omega
  · simp

theorem touch (ht : Touch ip s' s'') (hstore : StoreOk s'') : Alone me s extra lk s'' := by
  have hself : s''.icache ip = { s'.icache ip with d := (s''.icache ip).d } := by
    conv_lhs => rw [ht.icache, update_self]
  refine h.step ip ht.sb ht.ftable ht.proc hstore (fun jp hj => ht.of_ne hj) ?_
    (fun _ _ => .rfl) ?_ (fun _ _ => rfl) fun _ => ?_
  · rw [hself, h.lock]
  · rw [hself, h.ref]
  · rw [hself]

theorem ilock (hip : ip ∉ lk) (hpos : 0 < (s'.icache ip).ref)
    (ht : (s'.view.dino (s'.icache ip).inum).type ≠ 0) (site : Site) :
    Wpx me F (Fs.ilock ip site) (fun _ s'' => s'' = s'.lockRead ip me ∧
      Alone me s extra (insert ip lk) s'') s' :=
  (wpx_ilock h.store hpos (h.lock_none hip) ht site).mono fun _ _ hs'' =>
    ⟨hs'', hs'' ▸ h.locked hpos ht⟩

theorem iput (hip : ip ∉ lk) (hpos : 0 < extra ip)
    (hkeep : 1 < (s.icache ip).ref + extra ip ∨ (s'.view.dino (s'.icache ip).inum).nlink ≠ 0) :
    Wpx me F (Fs.iput ip) (fun _ s'' =>
      Alone me s (update extra ip (extra ip - 1)) lk s'' ∧ Calm s' s'' ∧
        OnlyEntry ip s' s'') s' := by
  have href := h.ref ip
  refine (wpx_iput (h.lock_none hip) fun hvalid hnlink hone => ?_).mono fun _ s'' hs'' => ?_
  · have hloaded := h.store.cache.loaded ip (by omega) hvalid
    rw [hloaded.copy] at hnlink
    exact hkeep.elim (fun hk => by omega) fun hk => hk hnlink
  · subst hs''
    refine ⟨h.put hpos, ⟨rfl, rfl, rfl, rfl⟩, fun jp hj => update_of_ne hj .., ?_⟩
    rw [State.setInode_icache, update_self]

variable [DecidableEq P]

theorem iunlock (hip : ip ∈ lk) (hpos : 0 < (s'.icache ip).ref) :
    Wpx me F (Fs.iunlock me ip) (fun _ s'' => Alone me s extra (lk.erase ip) s'' ∧ Calm s' s'' ∧
      OnlyEntry ip s' s'') s' := by
  refine (wpx_iunlock (h.lock_some hip) hpos).mono fun _ s'' hs'' => ?_
  subst hs''
  refine ⟨h.unlocked hpos, .setInode .., fun jp hj => update_of_ne hj .., ?_⟩
  rw [State.setInode_icache, update_self]

theorem iunlockput (hip : ip ∈ lk) (hpos : 0 < extra ip)
    (hkeep : 1 < (s.icache ip).ref + extra ip ∨ (s'.view.dino (s'.icache ip).inum).nlink ≠ 0) :
    Wpx me F (Fs.iunlockput me ip) (fun _ s'' =>
      Alone me s (update extra ip (extra ip - 1)) (lk.erase ip) s'' ∧ Calm s' s'' ∧
        OnlyEntry ip s' s'') s' := by
  rw [Fs.iunlockput, wpx_bind]
  refine (h.iunlock hip (h.ref_pos hpos)).mono fun _ s₁ hs₁ => ?_
  obtain ⟨h₁, hcalm, honly⟩ := hs₁
  refine (h₁.iput (Finset.notMem_erase _ _) hpos ?_).mono fun _ s'' hs'' =>
    ⟨hs''.1, hcalm.trans hs''.2.1, honly.trans hs''.2.2⟩
  rwa [hcalm.view, honly.self]

end Alone

/-! ### A process that changes nothing -/

/-- The process has taken references and locks, and that is all. -/
structure Using (me : P) (s : State P) (extra : Slot → ℕ) (lk : Finset Slot) (s' : State P) :
    Prop extends Alone me s extra lk s', Calm s s'

namespace Using

variable {extra : Slot → ℕ} {lk : Finset Slot}

theorem refl (hs : StoreOk s) (hlock : ∀ jp, (s.icache jp).lock = none) :
    Using me s (fun _ => 0) ∅ s := ⟨.refl hs hlock, rfl, rfl, rfl⟩

variable {extra' : Slot → ℕ} {lk' : Finset Slot}

variable (h : Using me s extra lk s')

include h

theorem of_calm (h' : Alone me s extra' lk' s'') (hcalm : Calm s' s'') :
    Using me s extra' lk' s'' :=
  ⟨h', (h.toCalm.trans hcalm).disk, (h.toCalm.trans hcalm).logged, (h.toCalm.trans hcalm).ops⟩

theorem view : s'.view = s.view := h.toCalm.view

theorem congr (he : ∀ jp, extra jp = extra' jp) :
    Using me s extra' lk s' := funext he ▸ h

theorem congr_lk (he : lk = lk') : Using me s extra lk' s' := he ▸ h

theorem got {i : ℕ} (hgot : Got s' i ip s'') (hi : i < s.sb.ninodes) :
    Using me s (update extra ip (extra ip + 1)) lk s'' :=
  h.of_calm (h.toAlone.got hgot hi) hgot.calm

theorem ilock (hip : ip ∉ lk) (hpos : 0 < (s'.icache ip).ref)
    (ht : (s.view.dino (s'.icache ip).inum).type ≠ 0) (site : Site) :
    Wpx me F (Fs.ilock ip site) (fun _ s'' => s'' = s'.lockRead ip me ∧
      Using me s extra (insert ip lk) s'') s' :=
  (h.toAlone.ilock hip hpos (h.view ▸ ht) site).mono fun _ _ hs'' =>
    ⟨hs''.1, h.of_calm hs''.2 (hs''.1 ▸ .setInode ..)⟩

theorem iput (hip : ip ∉ lk) (hpos : 0 < extra ip)
    (hkeep : 1 < (s.icache ip).ref + extra ip ∨ (s.view.dino (s'.icache ip).inum).nlink ≠ 0) :
    Wpx me F (Fs.iput ip) (fun _ s'' =>
      Using me s (update extra ip (extra ip - 1)) lk s'' ∧ OnlyEntry ip s' s'') s' :=
  (h.toAlone.iput hip hpos (h.view ▸ hkeep)).mono fun _ _ hs'' =>
    ⟨h.of_calm hs''.1 hs''.2.1, hs''.2.2⟩

variable [DecidableEq P]

theorem iunlock (hip : ip ∈ lk) (hpos : 0 < (s'.icache ip).ref) :
    Wpx me F (Fs.iunlock me ip) (fun _ s'' => Using me s extra (lk.erase ip) s'' ∧
      OnlyEntry ip s' s'') s' :=
  (h.toAlone.iunlock hip hpos).mono fun _ _ hs'' => ⟨h.of_calm hs''.1 hs''.2.1, hs''.2.2⟩

theorem iunlockput (hip : ip ∈ lk) (hpos : 0 < extra ip)
    (hkeep : 1 < (s.icache ip).ref + extra ip ∨ (s.view.dino (s'.icache ip).inum).nlink ≠ 0) :
    Wpx me F (Fs.iunlockput me ip) (fun _ s'' =>
      Using me s (update extra ip (extra ip - 1)) (lk.erase ip) s'' ∧ OnlyEntry ip s' s'') s' :=
  (h.toAlone.iunlockput hip hpos (h.view ▸ hkeep)).mono fun _ _ hs'' =>
    ⟨h.of_calm hs''.1 hs''.2.1, hs''.2.2⟩

end Using

end Dave.Fs
