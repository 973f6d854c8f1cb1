import Dave.Fs.Making

/-!
# Calls on names by a process that runs alone

`link`, `unlink`, `mkdir`, `mknod`, `open` and `chdir`, from a tree of directories that no other
process uses: what they log, and what they leave behind when they fail.
-/

namespace Dave.Fs

open Finset Function Prog

variable {P : Type} {s s' s'' : State P} {me : P} {ip dp : Slot} {i j d n : ℕ} {name : Str}
  {extra : Slot → ℕ} {lk : Finset Slot} {F : Stop Panic Slot → Prop}

/-! ### What a call has done -/

/-- The number of different blocks that have been logged since `s` is at most `MAXOPBLOCKS`. -/
def Fits (s s' : State P) : Prop :=
  ∃ new, s'.logged = new ++ s.logged ∧ new.toFinset.card ≤ maxOpBlocks

/-- The disk, the descriptors and the current directories are as they were. -/
structure Untouched (s s' : State P) : Prop where
  view : s'.view = s.view
  proc : s'.proc = s.proc

theorem Fits.of_homes (hsize : s.sb.size ≤ bpb) (h : Spends n (homes s.sb i) s s')
    (hn : n + 2 ≤ maxOpBlocks) : Fits s s' := by
  have hsub : homes s.sb i ⊆ (({s.sb.iblock i, s.sb.bmapstart} : Finset ℕ) : Set ℕ) := by
    rw [coe_pair]
    exact Set.insert_subset_insert (Superblock.bitmap_subset hsize)
  obtain ⟨new, hnew, hcard⟩ := h.card_le hsub
  exact ⟨new, hnew, hcard.trans ((Nat.add_le_add_left card_le_two n).trans hn)⟩

theorem Fits.of_homes_union (hsize : s.sb.size ≤ bpb)
    (h : Spends n (homes s.sb i ∪ homes s.sb j) s s') (hn : n + 3 ≤ maxOpBlocks) : Fits s s' := by
  have hsub : homes s.sb i ∪ homes s.sb j ⊆
      (({s.sb.iblock i, s.sb.iblock j, s.sb.bmapstart} : Finset ℕ) : Set ℕ) := by
    have hmap := Superblock.bitmap_subset hsize
    rintro b (hb | hb)
    · rcases hb with rfl | hb
      · simp
      · simp [Set.mem_singleton_iff.mp (hmap hb)]
    · rcases hb with rfl | hb
      · simp
      · simp [Set.mem_singleton_iff.mp (hmap hb)]
  obtain ⟨new, hnew, hcard⟩ := h.card_le hsub
  exact ⟨new, hnew, hcard.trans ((Nat.add_le_add_left card_le_three n).trans hn)⟩

/-- The outcome of a call that returns `r`. -/
structure Outcome (s : State P) (r : ℤ) (s' : State P) : Prop where
  spends : ∃ i j, Spends 6 (homes s.sb i ∪ homes s.sb j) s s'
  failed : r = -1 → Untouched s s'

theorem Outcome.fits {r : ℤ} (hsize : s.sb.size ≤ bpb) (h : Outcome s r s') : Fits s s' := by
  obtain ⟨i, j, h⟩ := h.spends
  exact .of_homes_union hsize h (by decide)

theorem Using.outcome (h : Using me s extra lk s') (r : ℤ) : Outcome s r s' :=
  ⟨⟨0, 0, (Spends.of_calm h.toCalm).mono (by omega) subset_rfl⟩, fun _ => ⟨h.view, h.proc⟩⟩

theorem Outcome.record {r : ℤ} (h : Outcome (s.record .beginOp) r s') :
    Outcome s r (s'.record .endOp) :=
  ⟨h.spends, fun hr => ⟨(h.failed hr).view, (h.failed hr).proc⟩⟩

theorem wpx_endWith {Q : ℤ → State P → Prop} (r : ℤ) :
    Wpx me F (endWith r) Q s ↔ Q r (s.record .endOp) := by
  simp only [endWith, endOp, wpx_bind, wpx_lift, wp_modify, pure_eq_ret, wpx_ret]

/-! ### Small steps -/

theorem Touch.inum_all (h : Touch ip s s') (jp : Slot) :
    (s'.icache jp).inum = (s.icache jp).inum := by
  by_cases hj : jp = ip
  · rw [hj, h.inum]
  · rw [h.of_ne hj]

theorem wpx_ilock_of_some {q : P} (hlock : (s.icache ip).lock = some q)
    (hpos : 0 < (s.icache ip).ref) {site : Site} {Q : Unit → State P → Prop} :
    Wpx me (fun _ => True) (ilock ip site) Q s := by
  simp only [ilock, wpx_bind, wpx_lift, wp_bind, wp_get]
  rw [if_neg (by omega), wp_pure]
  exact (wpx_acq_of_some (q := q) hlock).mpr trivial

theorem Got.ref_ne_one (h : Got s i ip s') (hvalid : (s'.icache ip).valid = true) :
    (s'.icache ip).ref ≠ 1 := by
  cases h with
  | hit hpos =>
    simp only [State.setInode_icache, update_self]
    omega
  | miss => simp at hvalid

theorem Alone.trans {extra' : Slot → ℕ} {lk' : Finset Slot} (h : Alone me s extra lk s')
    (h' : Alone me s' extra' lk' s'') : Alone me s (fun jp => extra jp + extra' jp) lk' s'' where
  sb := h'.sb.trans h.sb
  ftable := h'.ftable.trans h.ftable
  proc := h'.proc.trans h.proc
  store := h'.store
  lock := h'.lock
  ref jp := by rw [h'.ref, h.ref, add_assoc]
  inum jp hpos := by rw [h'.inum jp (by rw [h.ref]; omega), h.inum jp hpos]

variable {E : Panic → Prop}

theorem Alone.setFields (h : Alone me s extra lk s') (hpos : 0 < (s'.icache ip).ref)
    (hvalid : (s'.icache ip).valid = true) {f : Dinode → Dinode} (ht : ∀ x, (f x).type = x.type)
    (hsz : ∀ x, (f x).size = x.size) (ha : ∀ x, (f x).addrs = x.addrs) :
    Wp E (do modifyInode ip f; iupdate ip) (fun _ s'' => Alone me s extra lk s'' ∧
      FieldsSet ip f s' s'' ∧ Logs (homes s.sb (s'.icache ip).inum) s' s'') s' := by
  refine ((setFields_spec h.store.disk (h.store.cache.loaded ip hpos hvalid) ht hsz ha).and
    (setFields_logs s' ip f)).mono fun _ s'' hs'' => ?_
  obtain ⟨hset, hlogs, -⟩ := hs''
  rw [h.sb] at hlogs
  exact ⟨h.touch hset.touch (hset.storeOk h.store hpos), hset, hlogs⟩

theorem Quiescent.of_alone (hq : Quiescent s me) (h : Alone me s extra ∅ s')
    (htype : ∀ j, (s'.view.dino j).type = (s.view.dino j).type)
    (hbytes : ∀ j, s'.view.bytes j = s.view.bytes j)
    (hnlink : ∀ j, (s'.view.dino j).nlink = (s.view.dino j).nlink ∨
      ∃ jp, 0 < (s'.icache jp).ref ∧ (s'.icache jp).inum = j) : Quiescent s' me := by
  have hnamed {j : ℕ} (hj : Named s j) : Named s' j := by
    obtain ⟨hlt, ht, hlive⟩ := hj
    refine ⟨h.sb ▸ hlt, by rwa [htype], ?_⟩
    rcases hnlink j with heq | huse
    · rcases hlive with hlink | ⟨jp, hpos, hi⟩
      · exact .inl (heq ▸ hlink)
      · exact .inr ⟨jp, by rw [h.ref]; omega, (h.inum jp hpos).trans hi⟩
    · exact .inr huse
  refine ⟨h.store, fun jp => h.lock_none (notMem_empty jp), ?_, hnamed hq.root,
    fun j hdir => ?_, fun j hdir e he hne => ?_⟩
  · obtain ⟨c, hc, hpos, ht⟩ := hq.cwd
    refine ⟨c, by rw [h.proc, hc], by rw [h.ref]; omega, ?_⟩
    rw [h.inum c hpos, htype]
    exact ht
  · rw [htype] at hdir
    rw [← View.length_bytes, hbytes, View.length_bytes]
    exact hq.size_dvd j hdir
  · rw [htype] at hdir
    rw [View.dirents_congr (hbytes j)] at he
    exact hnamed (hq.entry j hdir e he hne)

theorem Using.lockDir (hq : Quiescent s me) (h : Using me s extra ∅ s')
    (hpos : 0 < (s'.icache dp).ref) (hdir : (s.view.dino (s'.icache dp).inum).type = tDir)
    (site : Site) :
    Wpx me F (Fs.ilock dp site) (fun _ s'' => Using me s extra {dp} s'' ∧ OnlyEntry dp s' s'' ∧
      (s''.icache dp).valid = true ∧ DirAt s'' dp (s'.icache dp).inum) s' := by
  refine (h.ilock (notMem_empty dp) hpos (by rw [hdir]; decide) site).mono fun _ s'' hs => ?_
  obtain ⟨rfl, h'⟩ := hs
  have hi : ((s'.lockRead dp me).icache dp).inum = (s'.icache dp).inum := by simp [State.lockRead]
  have hpos' : 0 < ((s'.lockRead dp me).icache dp).ref := by simpa [State.lockRead] using hpos
  have hvalid : ((s'.lockRead dp me).icache dp).valid = true := by simp [State.lockRead]
  refine ⟨h', ⟨fun jp hj => update_of_ne hj .., hi⟩, hvalid, ?_⟩
  exact
    { h'.openDir hq hpos' hvalid (hi ▸ hdir) with
      inum_eq := hi
      dev_eq := h'.store.cache.dev_eq dp hpos' }

theorem Alone.dirlink (h : Alone me s extra lk s') (hd : DirAt s' dp d)
    (hpos : 0 < (s'.icache dp).ref)
    (hent : ∀ j off, lookupFrom name (s'.view.dirents d) 0 = some (j, off) → j < s.sb.ninodes)
    (inum : ℕ) :
    Wpx me (fun _ => True) (Fs.dirlink dp name inum) (fun r s'' =>
      Alone me s extra lk s'' ∧ Spends 2 (homes s.sb d) s' s'' ∧
      (∀ jp, 0 < (s'.icache jp).ref → (s''.icache jp).inum = (s'.icache jp).inum) ∧
      (r = false → Calm s' s'')) s' := by
  cases hl : lookupFrom name (s'.view.dirents d) 0 with
  | none =>
    have habsent : bound (s'.view.dirents d) name = none := by
      rw [← map_lookupFrom _ _ 0, hl, Option.map_none]
    refine (hd.dirlink_absent me habsent inum).mono fun r s'' hr => ?_
    obtain ⟨rfl, hentered, hspend⟩ := hr
    rw [h.sb] at hspend
    exact ⟨h.touch hentered.touch (hentered.storeOk h.store hpos), hspend,
      fun jp _ => hentered.touch.inum_all jp, fun hf => absurd hf.symm Bool.false_ne_true⟩
  | some q =>
    obtain ⟨j, off⟩ := q
    have hlook := hd.dirlookup (E := fun _ => True) name fun _ => trivial
    rw [hl] at hlook
    rw [Fs.dirlink, wpx_bind, wpx_lift]
    refine hlook.mono fun r s₁ hr => ?_
    obtain ⟨jp, rfl, hgot⟩ := hr
    have h₁ := h.got hgot (hent j off hl)
    simp only [wpx_bind]
    by_cases hlock : (s₁.icache jp).lock = none
    · refine (wpx_iput hlock fun hvalid _ => hgot.ref_ne_one hvalid).mono fun _ s₂ hs₂ => ?_
      subst hs₂
      have hcalm : Calm s' ((s₁.record .iput).setInode jp
          { s₁.icache jp with ref := (s₁.icache jp).ref - 1 }) :=
        hgot.calm.trans ⟨rfl, rfl, rfl, rfl⟩
      refine ⟨(h₁.put (update_succ_pos extra jp)).congr fun kp => ?_,
        (Spends.of_calm hcalm).mono (by omega) subset_rfl, fun kp hkp => ?_, fun _ => hcalm⟩
      · by_cases hk : kp = jp
        · subst hk
          simp
        · simp [hk]
      · rw [← hgot.inum_of_pos hkp]
        by_cases hk : kp = jp
        · subst hk
          simp
        · simp [hk]
    · obtain ⟨q, hq⟩ := Option.ne_none_iff_exists'.mp hlock
      simp only [Fs.iput, wpx_bind, wpx_lift, wp_modify]
      exact (wpx_acq_of_some (q := q) hq).mpr trivial

theorem Alone.eraseEntry (h : Alone me s extra lk s') (hd : DirAt s' dp d)
    (hpos : 0 < (s'.icache dp).ref) {k : ℕ} (hk : k < (s'.view.dirents d).length) :
    Wp E (Fs.eraseEntry dp ip (deSize * k)) (fun _ s'' => Alone me s extra lk s'' ∧
      Touch dp s' s'' ∧ Spends 2 (homes s.sb d) s' s'') s' := by
  rw [← hd.inum_eq] at hk
  refine ((eraseEntry_spec hd.toOpenDir hk).and (eraseEntry_logs hd.toOpenDir hk.le)).mono
    fun _ s'' hs'' => ?_
  obtain ⟨⟨s₁, hent, hrest⟩, hspend⟩ := hs''
  rw [hd.inum_eq, h.sb] at hspend
  have hstore := hent.storeOk h.store hpos
  split_ifs at hrest
  · have hpos₁ : 0 < (s₁.icache dp).ref := by rw [hent.touch.self]; exact hpos
    have htouch := hent.touch.trans hrest.touch
    exact ⟨h.touch htouch (hrest.storeOk hstore hpos₁), htouch, hspend⟩
  · subst hrest
    exact ⟨h.touch hent.touch hstore, hent.touch, hspend⟩

variable [DecidableEq P]

/-! ### `link` -/

theorem Alone.linkBad (h : Alone me s extra ∅ s') (hpos : 0 < extra ip)
    (hi : (s'.icache ip).inum = i)
    (hview : s'.view = s.view.setDino i
      { s.view.dino i with nlink := (s.view.dino i).nlink + 1 })
    (ht : (s.view.dino i).type ≠ 0)
    (hkeep : 1 < (s.icache ip).ref + extra ip ∨ (s.view.dino i).nlink ≠ 0) :
    Wpx me F (Fs.linkBad me ip) (fun r s'' => ∃ x, s'' = x.record .endOp ∧ r = -1 ∧
      Untouched s x ∧ Logs (homes s.sb i) s' x) s' := by
  have href := h.ref_pos hpos
  have hdino : s'.view.dino i = { s.view.dino i with nlink := (s.view.dino i).nlink + 1 } := by
    rw [hview, View.setDino_dino, update_self]
  simp only [Fs.linkBad, wpx_bind]
  refine (h.ilock (notMem_empty ip) href (by rw [hi, hdino]; exact ht) _).mono
    fun _ s₁ hs₁ => ?_
  obtain ⟨rfl, h₁⟩ := hs₁
  have hi₁ : ((s'.lockRead ip me).icache ip).inum = i := by simp [State.lockRead, hi]
  have hd₁ : ((s'.lockRead ip me).icache ip).d = s'.view.dino i := by simp [State.lockRead, hi]
  rw [wpx_lift]
  refine (h₁.setFields (f := fun d => { d with nlink := d.nlink - 1 }) (h₁.ref_pos hpos)
    (by simp [State.lockRead]) (fun _ => rfl) (fun _ => rfl) fun _ => rfl).mono fun _ s₂ hs₂ => ?_
  obtain ⟨h₂, hset, hlogs⟩ := hs₂
  rw [hi₁] at hlogs
  have hback : s₂.view = s.view := by
    rw [hset.view, hi₁, hd₁, hdino, show (s'.lockRead ip me).view = s'.view from rfl, hview]
    refine View.ext ?_ rfl rfl
    rw [View.setDino_dino, View.setDino_dino, update_idem]
    refine update_eq_self_iff.mpr ?_
    simp
  refine (h₂.iunlockput (mem_insert_self ip ∅) hpos ?_).mono fun _ s₃ hs₃ => ?_
  · rw [hback, hset.touch.inum, hi₁]
    exact hkeep
  obtain ⟨h₃, hcalm, -⟩ := hs₃
  rw [wpx_endWith]
  exact ⟨s₃, rfl, rfl, ⟨hcalm.view.trans hback, h₃.proc⟩,
    .trans (.of_eq rfl) (hlogs.trans (.of_eq hcalm.logged))⟩

/-- The part of `sys_link` that enters the inode, whose link count has been raised, under a new
path. -/
def linkNew (me : P) (ip : Slot) (dev inum : ℕ) (new : Str) : Kernel P ℤ := do
  match ← nameiparent me new with
  | none => linkBad me ip
  | some (dp, name) =>
    ilock dp (.linkParent name)
    let ddev ← .lift do return ((← get).icache dp).dev
    if ddev ≠ dev then
      iunlockput me dp
      linkBad me ip
    else if ← dirlink dp name inum then
      iunlockput me dp
      iput ip
      endWith 0
    else
      iunlockput me dp
      linkBad me ip

variable {t : State P}

theorem Quiescent.linkNew (hq : Quiescent t me) (h : Alone me t (oneRef (some ip)) ∅ s)
    (hi : (s.icache ip).inum = i)
    (hview : s.view = t.view.setDino i { t.view.dino i with nlink := (t.view.dino i).nlink + 1 })
    (hbytes : ∀ j, s.view.bytes j = t.view.bytes j) (hlogs : Logs (homes t.sb i) t s)
    (htype : (t.view.dino i).type ≠ 0) (hdir : (t.view.dino i).type ≠ tDir)
    (hkeep : 0 < (t.icache ip).ref ∨ (t.view.dino i).nlink ≠ 0) (new : Str) :
    Wpx me (fun _ => True) (Fs.linkNew me ip rootDev i new) (fun r s' =>
      ∃ x, s' = x.record .endOp ∧ Outcome t r x) s := by
  have hone : 0 < oneRef (some ip) ip := by rw [oneRef_self]; omega
  have hdino (j : ℕ) : (s.view.dino j).type = (t.view.dino j).type ∧
      (j ≠ i → (s.view.dino j).nlink = (t.view.dino j).nlink) := by
    rw [hview, View.setDino_dino]
    by_cases hj : j = i
    · subst hj
      rw [update_self]
      exact ⟨rfl, fun hne => absurd rfl hne⟩
    · rw [update_of_ne hj]
      exact ⟨rfl, fun _ => rfl⟩
  have hq' : Quiescent s me := hq.of_alone h (fun j => (hdino j).1) hbytes fun j => by
    by_cases hj : j = i
    · exact .inr ⟨ip, h.ref_pos hone, hj ▸ hi⟩
    · exact .inl ((hdino j).2 hj)
  -- the ways to the label `bad`
  have hbad {extra : Slot → ℕ} {s' : State P} (h' : Alone me t extra ∅ s')
      (hpos : oneRef (some ip) ip ≤ extra ip) (hcalm : Calm s s')
      (hi' : (s'.icache ip).inum = i) :
      Wpx me (fun _ => True) (Fs.linkBad me ip) (fun r s' =>
        ∃ x, s' = x.record .endOp ∧ Outcome t r x) s' := by
    rw [oneRef_self] at hpos
    refine (h'.linkBad hpos hi' (hcalm.view.trans hview) htype (hkeep.imp_left (by omega))).mono ?_
    rintro r _ ⟨x, rfl, rfl, hsame, hlogs'⟩
    refine ⟨x, rfl, ⟨i, i, ?_⟩, fun _ => hsame⟩
    rw [Set.union_self]
    exact ((hlogs.trans (.of_eq hcalm.logged)).trans hlogs').spends.mono (by omega) subset_rfl
  rw [Fs.linkNew, wpx_bind]
  refine (hq'.nameiparent new fun _ => trivial).mono fun r s₁ hr => ?_
  obtain ⟨hpar, hu⟩ := hr
  have h₁ := h.trans hu.toAlone
  have hi₁ : (s₁.icache ip).inum = i := by rw [hu.inum ip (h.ref_pos hone), hi]
  cases r with
  | none => exact hbad h₁ (Nat.le_add_right _ _) hu.toCalm hi₁
  | some q =>
  obtain ⟨dp, name⟩ := q
  obtain ⟨d, hd⟩ : ∃ d, d = (s₁.icache dp).inum := ⟨_, rfl⟩
  rw [Option.map_some] at hpar hu
  dsimp only at hpar hu
  rw [← hd] at hpar
  obtain ⟨-, hdirtype⟩ := View.of_parent_eq_some hpar.symm
  obtain ⟨-, -, hlive⟩ := hq'.named_parent hpar.symm
  have hne : ip ≠ dp := fun heq => by
    rw [heq, ← hd] at hi₁
    rw [hi₁, (hdino i).1] at hdirtype
    exact hdir hdirtype
  have honed : 0 < oneRef (some dp) dp := by rw [oneRef_self]; omega
  simp only [wpx_bind]
  refine (hu.lockDir hq' (hu.ref_pos honed) (hd ▸ hdirtype) _).mono fun _ s₂ hs₂ => ?_
  obtain ⟨hu₂, honly₂, hvalid₂, hdp₂⟩ := hs₂
  rw [← hd] at hdp₂
  have h₂ := h.trans hu₂.toAlone
  have hi₂ : (s₂.icache ip).inum = i := by rw [honly₂.inum, hi₁]
  simp only [wpx_lift, wp_bind, wp_get, wp_pure, hdp₂.dev_eq]
  rw [if_neg (not_not.mpr rfl), wpx_bind]
  have hent (j off : ℕ) (hl : lookupFrom name (s₂.view.dirents d) 0 = some (j, off)) :
      j < t.sb.ninodes := by
    rw [hu₂.view] at hl
    exact h.sb ▸ (hq'.of_lookup hdirtype hl).1
  have hkeepd : 1 < (t.icache dp).ref + (oneRef (some ip) dp + oneRef (some dp) dp) ∨
      (s.view.dino d).nlink ≠ 0 := by
    refine (hu₂.kept hdp₂.inum_eq hlive).imp_left fun hpos => ?_
    rw [h.ref, oneRef_of_ne hne.symm] at hpos
    rw [oneRef_self]
    omega
  have hposd : 0 < oneRef (some ip) dp + oneRef (some dp) dp := by omega
  refine (h₂.dirlink hdp₂ (hu₂.ref_pos honed) hent i).mono fun r s₃ hs₃ => ?_
  obtain ⟨h₃, hspend, hinum, hcalm₃⟩ := hs₃
  have hi₃ : (s₃.icache ip).inum = i := by
    rw [hinum ip (h₂.ref_pos (by omega)), hi₂]
  have hd₃ : (s₃.icache dp).inum = d := by
    rw [hinum dp (hu₂.ref_pos honed), hdp₂.inum_eq]
  cases r with
  | false =>
    have hcalm := hu₂.toCalm.trans (hcalm₃ rfl)
    rw [if_neg Bool.false_ne_true, wpx_bind]
    refine (h₃.iunlockput (mem_singleton_self dp) hposd ?_).mono fun _ s₄ hs₄ => ?_
    · rw [hd₃, hcalm.view]
      exact hkeepd
    · obtain ⟨h₄, hcalm₄, honly₄⟩ := hs₄
      refine hbad (h₄.congr_lk (by simp)) ?_ (hcalm.trans hcalm₄) (by rw [honly₄.inum, hi₃])
      rw [update_of_ne hne]
      omega
  | true =>
    simp only [if_true, wpx_bind]
    refine (h₃.iunlockput_logs (mem_singleton_self dp) hposd).mono fun _ s₄ hs₄ => ?_
    obtain ⟨h₄, hlogs₄, honly₄⟩ := hs₄
    refine (h₄.iput_logs (by simp) (by rw [update_of_ne hne]; omega)).mono
      fun _ s₅ hs₅ => ?_
    obtain ⟨-, hlogs₅, -⟩ := hs₅
    rw [hd₃] at hlogs₄
    rw [honly₄.inum, hi₃] at hlogs₅
    rw [wpx_endWith]
    refine ⟨s₅, rfl, ⟨i, d, ?_⟩, fun hr => absurd hr (by decide)⟩
    have hfirst : Spends 0 (homes t.sb i) t s₂ := (hlogs.trans (.of_eq hu₂.logged)).spends
    exact ((((hfirst.mono le_rfl Set.subset_union_left).trans
      (hspend.mono le_rfl Set.subset_union_right)).trans
        (hlogs₄.spends.mono le_rfl Set.subset_union_right)).trans
          (hlogs₅.spends.mono le_rfl Set.subset_union_left)).mono (by omega) subset_rfl

theorem Quiescent.sysLink (hq : Quiescent s me) (old new : Option Str) :
    Wpx me (fun _ => True) (Fs.sysLink me old new) (Outcome s) s := by
  have hnone : Outcome s (-1) s := Using.outcome (.refl hq.store hq.lock : Using me s _ _ s) (-1)
  cases old with
  | none => exact hnone
  | some old =>
  cases new with
  | none => exact hnone
  | some new =>
  have hq₀ := hq.record .beginOp
  simp only [Fs.sysLink, wpx_bind, wpx_lift, beginOp, wp_modify]
  obtain ⟨t, ht⟩ : ∃ t, t = s.record .beginOp := ⟨_, rfl⟩
  have hfin {r : ℤ} {x : State P} (h : Outcome t r x) : Outcome s r (x.record .endOp) :=
    .record (ht ▸ h)
  rw [← ht] at hq₀ ⊢
  refine (hq₀.namei old fun _ => trivial).mono fun r s₁ hr => ?_
  obtain ⟨hres, hu⟩ := hr
  cases r with
  | none =>
    rw [wpx_endWith]
    exact hfin (hu.outcome _)
  | some ip =>
  obtain ⟨i, hi⟩ : ∃ i, i = (s₁.icache ip).inum := ⟨_, rfl⟩
  rw [Option.map_some, ← hi] at hres
  obtain ⟨-, htype, hlive⟩ := hq₀.named_resolve (hq₀.named_start old) hres.symm
  have hone : 0 < oneRef (some ip) ip := by rw [oneRef_self]; omega
  have hpos : 0 < (s₁.icache ip).ref := hu.ref_pos hone
  have hkeep := hu.kept hi.symm hlive
  simp only [wpx_bind]
  refine (hu.ilock (notMem_empty ip) hpos (hi ▸ htype) _).mono fun _ s₂ hs₂ => ?_
  obtain ⟨rfl, hu₂⟩ := hs₂
  have hd₂ : ((s₁.lockRead ip me).icache ip).d = t.view.dino i := by
    simp [State.lockRead, ← hi, hu.view]
  have hi₂ : ((s₁.lockRead ip me).icache ip).inum = i := by simp [State.lockRead, hi]
  have hdev₂ := hu₂.store.cache.dev_eq ip (hu₂.ref_pos hone)
  simp only [wpx_lift, wp_bind, wp_get, wp_pure, hd₂, hi₂, hdev₂]
  split_ifs with hdir
  · rw [wpx_bind]
    refine (hu₂.iunlockput (mem_insert_self ip ∅) hone ?_).mono fun _ s₃ hs₃ => ?_
    · rw [hi₂, oneRef_self]
      exact hkeep.imp_left (by omega)
    · rw [wpx_endWith]
      exact hfin (hs₃.1.outcome _)
  rw [wpx_bind, wpx_lift]
  refine (hu₂.setFields (f := fun d => { d with nlink := d.nlink + 1 }) (hu₂.ref_pos hone)
    (by simp [State.lockRead]) (fun _ => rfl) (fun _ => rfl) fun _ => rfl).mono fun _ s₃ hs₃ => ?_
  obtain ⟨h₃, hset, hlogs₃⟩ := hs₃
  rw [wpx_bind]
  refine (h₃.iunlock (mem_insert_self ip ∅) (h₃.ref_pos hone)).mono fun _ s₄ hs₄ => ?_
  obtain ⟨h₄, hcalm₄, honly₄⟩ := hs₄
  rw [hi₂] at hlogs₃
  have hview₄ : s₄.view = t.view.setDino i
      { t.view.dino i with nlink := (t.view.dino i).nlink + 1 } := by
    rw [hcalm₄.view, hset.view, hi₂, hd₂, hu₂.view]
  refine (hq₀.linkNew (h₄.congr_lk (by simp)) (by rw [honly₄.inum, hset.touch.inum, hi₂]) hview₄
    (fun j => ?_) ?_ htype hdir hkeep new).mono ?_
  · rw [hcalm₄.view, hset.bytes, hu₂.view]
  · exact .trans (.of_eq hu₂.logged) (hlogs₃.trans (.of_eq hcalm₄.logged))
  · rintro r _ ⟨x, rfl, hx⟩
    exact hfin hx

/-! ### `unlink` -/

theorem Using.unlinkBad (h : Using me t extra lk s) (hdp : dp ∈ lk) (hpos : 0 < extra dp)
    (hkeep : 1 < (t.icache dp).ref + extra dp ∨ (t.view.dino (s.icache dp).inum).nlink ≠ 0) :
    Wpx me F (Fs.unlinkBad me dp) (fun r s' => ∃ x, s' = x.record .endOp ∧ Outcome t r x) s := by
  rw [Fs.unlinkBad, wpx_bind]
  refine (h.iunlockput hdp hpos hkeep).mono fun _ s₁ hs₁ => ?_
  rw [wpx_endWith]
  exact ⟨s₁, rfl, hs₁.1.outcome _⟩

/-- The part of `sys_unlink` with both inodes locked. -/
def unlinkEntry (me : P) (dp ip : Slot) (off : ℕ) : Kernel P ℤ := do
  let d ← .lift do return ((← get).icache ip).d
  if d.nlink.toInt < 1 then
    .fail .unlinkNlink
  else if ← .lift (isFull ip) then
    iunlockput me ip
    unlinkBad me dp
  else
    .lift (eraseEntry dp ip off)
    iunlockput me dp
    .lift do
      modifyInode ip fun d => { d with nlink := d.nlink - 1 }
      iupdate ip
    iunlockput me ip
    endWith 0

theorem Using.unlinkEntry (hq : Quiescent t me) (h : Using me t extra {ip, dp} s)
    (hposd : 0 < extra dp) (hposi : 0 < extra ip) (hne : ip ≠ dp) (hd : DirAt s dp d)
    (hi : (s.icache ip).inum = i) (hvalid : (s.icache ip).valid = true)
    (hkeepd : 1 < (t.icache dp).ref + extra dp ∨ (t.view.dino d).nlink ≠ 0)
    (hkeepi : 1 < (t.icache ip).ref + extra ip ∨ (t.view.dino i).nlink ≠ 0) {k : ℕ}
    (hk : k < (t.view.dirents d).length) :
    Wpx me (fun _ => True) (Fs.unlinkEntry me dp ip (deSize * k)) (fun r s' =>
      ∃ x, s' = x.record .endOp ∧ Outcome t r x) s := by
  have hcopy := (h.store.cache.loaded ip (h.ref_pos hposi) hvalid).copy
  have hopen (hdir : (s.icache ip).d.type = tDir) : OpenDir s ip := by
    rw [hcopy, h.view] at hdir
    exact h.openDir hq (h.ref_pos hposi) hvalid hdir
  rw [Fs.unlinkEntry, wpx_bind]
  simp only [wpx_lift, wp_bind, wp_get, wp_pure]
  split_ifs with hnlink
  · trivial
  rw [wpx_bind, wpx_lift, wp_of_ok (isFull_eq hopen)]
  split_ifs with hfull
  · rw [wpx_bind]
    refine (h.iunlockput (by simp) hposi (by rw [hi]; exact hkeepi)).mono fun _ s₁ hs₁ => ?_
    obtain ⟨h₁, honly⟩ := hs₁
    have hext : update extra ip (extra ip - 1) dp = extra dp :=
      update_of_ne hne.symm ..
    refine h₁.unlinkBad (by simp [hne.symm]) (by rw [hext]; exact hposd) ?_
    rw [hext, honly.inum, hd.inum_eq]
    exact hkeepd
  · simp only [wpx_bind, wpx_lift]
    refine (h.toAlone.eraseEntry hd (h.ref_pos hposd) (by rw [h.view]; exact hk)).mono
      fun _ s₁ hs₁ => ?_
    obtain ⟨h₁, htouch, hspend⟩ := hs₁
    refine (h₁.iunlockput_logs (by simp) hposd).mono fun _ s₂ hs₂ => ?_
    obtain ⟨h₂, hlogs₂, honly₂⟩ := hs₂
    have hext : update extra dp (extra dp - 1) ip = extra ip :=
      update_of_ne hne ..
    have hposi₂ : 0 < update extra dp (extra dp - 1) ip := by rw [hext]; exact hposi
    have hi₂ : (s₂.icache ip).inum = i := by rw [honly₂.inum, htouch.inum_all, hi]
    have hvalid₂ : (s₂.icache ip).valid = true := by
      rw [honly₂.of_ne ip hne, htouch.of_ne hne, hvalid]
    refine (h₂.setFields (f := fun d => { d with nlink := d.nlink - 1 }) (h₂.ref_pos hposi₂)
      hvalid₂ (fun _ => rfl) (fun _ => rfl) fun _ => rfl).mono fun _ s₃ hs₃ => ?_
    obtain ⟨h₃, hset, hlogs₃⟩ := hs₃
    refine (h₃.iunlockput_logs (by simp [hne]) hposi₂).mono fun _ s₄ hs₄ => ?_
    obtain ⟨-, hlogs₄, -⟩ := hs₄
    rw [htouch.inum, hd.inum_eq] at hlogs₂
    rw [hi₂] at hlogs₃
    rw [hset.touch.inum, hi₂] at hlogs₄
    rw [wpx_endWith]
    refine ⟨s₄, rfl, ⟨d, i, ?_⟩, fun hr => absurd hr (by decide)⟩
    have hfirst : Spends 0 (homes t.sb d) t s := .of_calm h.toCalm
    exact (((((hfirst.trans hspend).trans hlogs₂.spends).mono le_rfl Set.subset_union_left).trans
      (hlogs₃.spends.mono le_rfl Set.subset_union_right)).trans
        (hlogs₄.spends.mono le_rfl Set.subset_union_right)).mono (by omega) subset_rfl

theorem Quiescent.sysUnlink (hq : Quiescent s me) (path : Option Str) :
    Wpx me (fun _ => True) (Fs.sysUnlink me path) (Outcome s) s := by
  cases path with
  | none => exact Using.outcome (.refl hq.store hq.lock : Using me s _ _ s) (-1)
  | some path =>
  have hq₀ := hq.record .beginOp
  simp only [Fs.sysUnlink, wpx_bind, wpx_lift, beginOp, wp_modify]
  obtain ⟨t, ht⟩ : ∃ t, t = s.record .beginOp := ⟨_, rfl⟩
  have hfin (r : ℤ) (s' : State P) (h : ∃ x, s' = x.record .endOp ∧ Outcome t r x) :
      Outcome s r s' := by
    obtain ⟨x, rfl, hx⟩ := h
    exact .record (ht ▸ hx)
  rw [← ht] at hq₀ ⊢
  refine (hq₀.nameiparent path fun _ => trivial).mono fun r s₁ hr => ?_
  obtain ⟨hpar, hu⟩ := hr
  cases r with
  | none =>
    rw [wpx_endWith]
    exact hfin _ _ ⟨s₁, rfl, hu.outcome _⟩
  | some q =>
  obtain ⟨dp, name⟩ := q
  obtain ⟨d, hd⟩ : ∃ d, d = (s₁.icache dp).inum := ⟨_, rfl⟩
  rw [Option.map_some] at hpar hu
  dsimp only at hpar hu
  rw [← hd] at hpar
  obtain ⟨-, hdir⟩ := View.of_parent_eq_some hpar.symm
  obtain ⟨-, -, hlive⟩ := hq₀.named_parent hpar.symm
  have hone : 0 < oneRef (some dp) dp := by rw [oneRef_self]; omega
  simp only [wpx_bind]
  refine (hu.lockDir hq₀ (hu.ref_pos hone) (hd ▸ hdir) _).mono fun _ s₂ hs₂ => ?_
  obtain ⟨hu₂, -, hvalid₂, hdp₂⟩ := hs₂
  rw [← hd] at hdp₂
  have hkeep := hu₂.kept hdp₂.inum_eq hlive
  have hbad : Wpx me (fun _ => True) (Fs.unlinkBad me dp) (Outcome s) s₂ := by
    refine (hu₂.unlinkBad (mem_singleton_self dp) hone ?_).mono hfin
    rw [hdp₂.inum_eq, oneRef_self]
    exact hkeep.imp_left (by omega)
  split_ifs with hdots
  · exact hbad
  rw [wpx_bind, wpx_lift]
  refine (hu₂.dirlookup (F := fun _ => True) hq₀ hvalid₂ hdp₂.inum_eq hdir (fun _ => trivial)
    name).mono fun r s₃ hr => ?_
  cases hl : lookupFrom name (t.view.dirents d) 0 with
  | none =>
    rw [hl] at hr
    obtain ⟨rfl, rfl⟩ := hr
    exact hbad
  | some q =>
  obtain ⟨j, off⟩ := q
  rw [hl] at hr
  obtain ⟨ip, rfl, hgot⟩ := hr
  obtain ⟨k, e, hk, rfl, -⟩ := exists_of_lookupFrom hl
  obtain ⟨hj, hjtype, hjlive⟩ := hq₀.of_lookup hdir hl
  have hu₃ := hu₂.got hgot hj
  have hposi : 0 < (s₃.icache ip).ref := hu₃.ref_pos (update_succ_pos (oneRef (some dp)) ip)
  simp only [wpx_bind]
  by_cases hne : ip = dp
  · -- the entry is for the directory itself, which the process has locked
    subst hne
    exact wpx_ilock_of_some (hu₃.lock_some (mem_singleton_self ip)) hposi
  have hextra : update (oneRef (some dp)) ip (oneRef (some dp) ip + 1) dp = 1 := by
    rw [update_of_ne (Ne.symm hne), oneRef_self]
  have hd₃ : DirAt s₃ dp d := hdp₂.congr (hgot.of_ne (Ne.symm hne)) hgot.sb hu₃.store.disk
    (by rw [hgot.view])
  refine (hu₃.ilock (by simpa using hne) hposi (by rw [hgot.inum]; exact hjtype) _).mono
    fun _ s₄ hs₄ => ?_
  obtain ⟨rfl, hu₄⟩ := hs₄
  have hi₄ : ((s₃.lockRead ip me).icache ip).inum = j := by simp [State.lockRead, hgot.inum]
  rw [Nat.zero_add]
  refine (hu₄.unlinkEntry hq₀ (by rw [hextra]; omega) (update_succ_pos _ ip) hne
    (hd₃.congr (update_of_ne (Ne.symm hne) ..) rfl hu₄.store.disk rfl) hi₄
    (by simp [State.lockRead]) ?_ ?_ (List.getElem?_eq_some_iff.mp hk).1).mono hfin
  · rw [hextra]
    exact hkeep.imp_left (by omega)
  · refine (hu₄.toAlone.kept (hu₄.ref_pos (update_succ_pos _ ip)) hi₄ hjlive).imp_left fun h => ?_
    rw [update_self]
    omega

/-! ### `mkdir` and `mknod` -/

theorem Quiescent.makeNode (hq : Quiescent s me) (path : Option Str) {type : Short}
    (htype : type ≠ 0) (hfile : type ≠ tFile) (major minor : Short) :
    Wpx me (fun _ => True) (Fs.makeNode me path type major minor) (Outcome s) s := by
  have hq₀ := hq.record .beginOp
  simp only [Fs.makeNode, wpx_bind, wpx_lift, beginOp, wp_modify]
  obtain ⟨t, ht⟩ : ∃ t, t = s.record .beginOp := ⟨_, rfl⟩
  have hfin {r : ℤ} {x : State P} (h : Outcome t r x) : Outcome s r (x.record .endOp) :=
    .record (ht ▸ h)
  rw [← ht] at hq₀ ⊢
  cases path with
  | none =>
    rw [wpx_endWith]
    exact hfin (Using.outcome (.refl hq₀.store hq₀.lock : Using me t _ _ t) _)
  | some path =>
  rw [wpx_bind]
  refine (hq₀.create path major minor htype).mono fun r s₁ hr => ?_
  rcases hr with ⟨rfl, -, hu⟩ | ⟨ip, rfl, heq, -⟩ | ⟨ip, d, name, rfl, hc⟩
  · rw [wpx_endWith]
    exact hfin (hu.outcome _)
  · exact absurd heq hfile
  · simp only [wpx_bind]
    refine (hc.alone.iunlockput_logs (mem_singleton_self ip)
      (by rw [oneRef_self]; omega)).mono fun _ s₂ hs₂ => ?_
    obtain ⟨-, hlogs, -⟩ := hs₂
    rw [wpx_endWith]
    exact hfin ⟨⟨d, (s₁.icache ip).inum,
      hc.spends.trans (hlogs.spends.mono le_rfl Set.subset_union_right)⟩,
        fun hr => absurd hr (by decide)⟩

end Dave.Fs
