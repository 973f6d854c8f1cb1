import Dave.Fs.Directory

/-!
# What a process logs

The blocks that the functions of the file system pass to `log_write`. A function that allocates and
frees blocks logs blocks of the free map, a function that stores an inode logs the block of the
inode, and `writei` logs for every block that it writes the block itself and at most one indirect
block.
-/

namespace Dave.Fs

open Function Prog

variable {P : Type} {s s' s'' : State P} {me : P} {ip dp : Slot} {S T : Set ℕ} {m n : ℕ}

/-! ### Counting -/

/-- The blocks logged since the state `s` lie in `S`, but for at most `n`. -/
def Spends (n : ℕ) (S : Set ℕ) (s s' : State P) : Prop :=
  ∃ D : Finset ℕ, D.card ≤ n ∧ Logs (↑D ∪ S) s s'

theorem Logs.spends (h : Logs S s s') : Spends 0 S s s' :=
  ⟨∅, by simp, h.mono Set.subset_union_right⟩

namespace Spends

theorem mono (h : Spends m S s s') (hn : m ≤ n) (hS : S ⊆ T) : Spends n T s s' := by
  obtain ⟨D, hD, hlogs⟩ := h
  exact ⟨D, hD.trans hn, hlogs.mono (Set.union_subset_union_right _ hS)⟩

theorem trans (h : Spends m S s s') (h' : Spends n S s' s'') : Spends (m + n) S s s'' := by
  obtain ⟨D, hD, hlogs⟩ := h
  obtain ⟨D', hD', hlogs'⟩ := h'
  refine ⟨D ∪ D', (Finset.card_union_le D D').trans (Nat.add_le_add hD hD'), ?_⟩
  refine (hlogs.mono (Set.union_subset_union_left S ?_)).trans
    (hlogs'.mono (Set.union_subset_union_left S ?_))
  · simp
  · simp

theorem of_calm (h : Calm s s') : Spends 0 S s s' := (Logs.of_eq h.logged).spends

theorem card_le (h : Spends n S s s') {T : Finset ℕ} (hT : S ⊆ ↑T) :
    ∃ new, s'.logged = new ++ s.logged ∧ new.toFinset.card ≤ n + T.card := by
  obtain ⟨D, hD, new, hnew, hmem⟩ := h
  refine ⟨new, hnew, ?_⟩
  have hsub : new.toFinset ⊆ D ∪ T := fun b hb => by
    rw [Finset.mem_union]
    exact (hmem b (List.mem_toFinset.mp hb)).imp id fun hS => hT hS
  exact (Finset.card_le_card hsub).trans ((Finset.card_union_le D T).trans
    (Nat.add_le_add_right hD _))

end Spends

theorem Superblock.bitmap_subset {sb : Superblock} (h : sb.size ≤ bpb) :
    sb.bitmap ⊆ {sb.bmapstart} := by
  rintro b ⟨c, hc, rfl⟩
  rw [Set.mem_singleton_iff, Superblock.bblock, Nat.div_eq_of_lt (hc.trans_le h), Nat.zero_add]

/-! ### Writing -/

theorem balloc_logs (s : State P) :
    Wp (fun _ => True) balloc (fun b s' => Logs (insert b s.sb.bitmap) s s' ∧ SameMem s s') s := by
  simp only [balloc, wp_bind, wp_modify, wp_get]
  split
  · rename_i b hfind
    have hb := List.mem_range.mp (List.mem_of_find?_eq_some hfind)
    have hmap : s.sb.bblock b ∈ insert b s.sb.bitmap := .inr ⟨b, hb, rfl⟩
    simp only [bzero, logWrite, wp_bind, wp_modify, wp_pure]
    refine ⟨⟨[b, s.sb.bblock b], rfl, fun c hc => ?_⟩, rfl, rfl, rfl, rfl⟩
    rcases List.mem_pair.mp hc with rfl | rfl
    · exact Set.mem_insert _ _
    · exact hmap
  · trivial

theorem addrOrAlloc_logs (s : State P) (ip : Slot) (k : Fin (nDirect + 1)) :
    Wp (fun _ => True) (addrOrAlloc ip k)
      (fun b s' => Logs (insert b s.sb.bitmap) s s' ∧ Touch ip s s') s := by
  simp only [addrOrAlloc, wp_bind, wp_get]
  split_ifs
  · rw [wp_bind]
    refine (balloc_logs s).mono fun b s₁ hs₁ => ?_
    simp only [setAddr, modifyInode, wp_bind, wp_modify, wp_pure]
    exact ⟨hs₁.1.trans (.of_eq rfl), (Touch.of_sameMem hs₁.2).trans (.setInode ..)⟩
  · exact ⟨.refl s, .refl ip s⟩

theorem bmap_logs (s : State P) (ip : Slot) (bn : ℕ) : Wp (fun _ => True) (bmap ip bn)
      (fun b s' => (∃ c, Logs ({b, c} ∪ s.sb.bitmap) s s') ∧ Touch ip s s') s := by
  rw [bmap]
  split_ifs with h h'
  · refine (addrOrAlloc_logs s ip _).mono fun b s' hs' => ⟨⟨b, hs'.1.mono ?_⟩, hs'.2⟩
    exact Set.insert_subset (.inl (.inl rfl)) Set.subset_union_right
  · rw [wp_bind]
    refine (addrOrAlloc_logs s ip _).mono fun c s₁ hs₁ => ?_
    simp only [bread, wp_bind, wp_get, wp_pure]
    split_ifs
    · rw [wp_bind]
      refine (balloc_logs s₁).mono fun b s₂ hs₂ => ?_
      have hsb := hs₁.2.sb
      simp only [logWrite, wp_bind, wp_modify, wp_pure]
      refine ⟨⟨c, ?_⟩, hs₁.2.trans ((Touch.of_sameMem hs₂.2).trans
        (.of_sameMem ⟨rfl, rfl, rfl, rfl⟩))⟩
      refine (hs₁.1.mono ?_).trans ((hs₂.1.mono ?_).trans (.logWrite ?_ s₂ _))
      · exact Set.insert_subset (.inl (.inr rfl)) Set.subset_union_right
      · rw [hsb]
        exact Set.insert_subset (.inl (.inl rfl)) Set.subset_union_right
      · exact .inl (.inr rfl)
    · refine ⟨⟨c, hs₁.1.mono ?_⟩, hs₁.2⟩
      exact Set.insert_subset (.inl (.inr rfl)) Set.subset_union_right
  · trivial

/-- The number of blocks that `n` bytes from the offset `off` on lie in. -/
def span (off n : ℕ) : ℕ := if n = 0 then 0 else nblk (off % bSize + n)

theorem span_add_le {off : ℕ} (hn : n ≠ 0) :
    1 + span (off + min n (bSize - off % bSize)) (n - min n (bSize - off % bSize)) ≤
      span off n := by
  have hmod : off % bSize < bSize := Nat.mod_lt _ (by decide)
  rw [span, span, if_neg hn]
  by_cases hle : n ≤ bSize - off % bSize
  · rw [Nat.min_eq_left hle, Nat.sub_self, if_pos rfl]
    simp only [nblk, bSize]
    omega
  · rw [Nat.min_eq_right (by omega)]
    have hnext : (off + (bSize - off % bSize)) % bSize = 0 := by
      simp only [bSize] at hmod ⊢
      omega
    rw [hnext]
    split_ifs
    · simp only [nblk, bSize]
      omega
    · simp only [nblk, bSize] at hmod hle ⊢
      omega

theorem writeLoop_logs (s : State P) (ip : Slot) (fuel off : ℕ) (src : List Byte) :
    Wp (fun _ => True) (writeLoop ip fuel off src) (fun _ s' =>
      Spends (2 * span off src.length) s.sb.bitmap s s' ∧ Touch ip s s') s := by
  induction fuel generalizing s off src with
  | zero => exact ⟨((Logs.refl s).spends).mono (Nat.zero_le _) subset_rfl, .refl ip s⟩
  | succ fuel ih =>
    rw [writeLoop]
    split_ifs with hzero
    · exact ⟨((Logs.refl s).spends).mono (Nat.zero_le _) subset_rfl, .refl ip s⟩
    · rw [wp_bind]
      refine (bmap_logs s ip _).mono fun b s₁ hs₁ => ?_
      obtain ⟨⟨c, hlogs⟩, htouch⟩ := hs₁
      simp only [bread, wp_bind, wp_get, wp_pure, logWrite, wp_modify]
      set m := min src.length (bSize - off % bSize) with hm
      refine (ih _ (off + m) (src.drop m)).mono fun _ s₂ hs₂ => ?_
      obtain ⟨hspend, htouch₂⟩ := hs₂
      have hsame (x : Block) : Touch ip s₁ ((s₁.setBlock b x).record (.logWrite b)) :=
        .of_sameMem ⟨rfl, rfl, rfl, rfl⟩
      refine ⟨?_, htouch.trans ((hsame _).trans htouch₂)⟩
      have hround : Spends 2 s.sb.bitmap s ((s₁.setBlock b
          (Block.setBytes (s₁.disk b) (off % bSize) (src.take m))).record (.logWrite b)) := by
        refine ⟨{b, c}, Finset.card_le_two, ?_⟩
        rw [Finset.coe_pair]
        exact hlogs.trans (.logWrite (.inl (.inl rfl)) s₁ _)
      have hsb : ((s₁.setBlock b (Block.setBytes (s₁.disk b) (off % bSize)
        (src.take m))).record (.logWrite b)).sb = s.sb := htouch.sb
      rw [hsb] at hspend
      rw [List.length_drop] at hspend
      have hle : 1 + span (off + m) (src.length - m) ≤ span off src.length := span_add_le hzero
      exact (hround.trans hspend).mono (by omega) subset_rfl

/-- The blocks for the inode `i` and for the free map. -/
def homes (sb : Superblock) (i : ℕ) : Set ℕ := insert (sb.iblock i) sb.bitmap

theorem setFields_logs (s : State P) (ip : Slot) (f : Dinode → Dinode) :
    Wp (fun _ => True) (do modifyInode ip f; iupdate ip)
      (fun _ s' => Logs (homes s.sb (s.icache ip).inum) s s' ∧ Touch ip s s') s := by
  simp only [modifyInode, wp_bind, wp_modify]
  simp only [iupdate, wp_bind, wp_modify, wp_get, logWrite]
  refine ⟨⟨[s.sb.iblock (s.icache ip).inum], ?_, fun b hb => ?_⟩, ?_⟩
  · simp only [State.record_icache, State.setInode_icache, update_self]
    rfl
  · rw [List.mem_singleton.mp hb]
    exact Set.mem_insert _ _
  · exact (Touch.setInode s ip _).trans (.of_sameMem ⟨rfl, rfl, rfl, rfl⟩)

theorem writeData_logs (s : State P) (ip : Slot) (src : List Byte) (off : Word) :
    Wp (fun _ => True) (writeData ip src off) (fun _ s' =>
      Spends (2 * span off.toNat src.length) (homes s.sb (s.icache ip).inum) s s' ∧
        Touch ip s s') s := by
  have hnone : Spends (2 * span off.toNat src.length) (homes s.sb (s.icache ip).inum) s s ∧
      Touch ip s s := ⟨((Logs.refl s).spends).mono (Nat.zero_le _) subset_rfl, .refl ip s⟩
  simp only [writeData, wp_bind, wp_get, wp_ite]
  by_cases hoff : off > (s.icache ip).d.size ∨ off + BitVec.ofNat 32 src.length < off
  · rw [if_pos hoff]
    exact hnone
  by_cases hbig : off + BitVec.ofNat 32 src.length > BitVec.ofNat 32 (maxFile * bSize)
  · rw [if_neg hoff, if_pos hbig]
    exact hnone
  · rw [if_neg hoff, if_neg hbig]
    refine (writeLoop_logs s ip _ _ src).mono fun _ s₁ hs₁ => ?_
    have hloop : Spends (2 * span off.toNat src.length) (homes s.sb (s.icache ip).inum) s s₁ :=
      hs₁.1.mono le_rfl (Set.subset_insert _ _)
    split_ifs
    · simp only [← wp_bind, wp_pure]
      refine (setFields_logs s₁ ip _).mono fun _ s₂ hs₂ => ?_
      rw [hs₁.2.inum, hs₁.2.sb] at hs₂
      exact ⟨hloop.trans hs₂.1.spends, hs₁.2.trans hs₂.2⟩
    · exact ⟨hloop, hs₁.2⟩

theorem span_entry (k : ℕ) : span (deSize * k) deSize = 1 := by
  rw [span, if_neg (by decide)]
  simp only [nblk, bSize, deSize]
  omega

theorem OpenDir.toNat_off (h : OpenDir s dp) {k : ℕ}
    (hk : k ≤ (s.view.dirents (s.icache dp).inum).length) :
    (BitVec.ofNat 32 (deSize * k)).toNat = deSize * k := by
  have hsize := h.size_le
  have hle : deSize * k ≤ (s.icache dp).d.size.toNat := h.length ▸ Nat.mul_le_mul_left deSize hk
  have hmax : maxFile * bSize < 2 ^ 32 := by decide
  rw [BitVec.toNat_ofNat, Nat.mod_eq_of_lt (by omega)]

theorem writeDirent_logs (h : OpenDir s dp) {de : Dirent} (hname : de.name.length = dirSiz) {k : ℕ}
    (hk : k ≤ (s.view.dirents (s.icache dp).inum).length) :
    Wp (fun _ => True) (writeData dp de.toBytes (BitVec.ofNat 32 (deSize * k)))
      (fun _ s' => Spends 2 (homes s.sb (s.icache dp).inum) s s' ∧ Touch dp s s') s := by
  have hlogs := writeData_logs s dp de.toBytes (BitVec.ofNat 32 (deSize * k))
  rwa [h.toNat_off hk, length_toBytes hname, span_entry] at hlogs

theorem addEntry_logs (h : OpenDir s dp) (name : Str) (inum : ℕ) :
    Wp (fun _ => True) (addEntry dp name inum)
      (fun _ s' => Spends 2 (homes s.sb (s.icache dp).inum) s s') s := by
  have hfuel := h.length_le_size.trans (Nat.le_add_right (s.icache dp).d.size.toNat 0)
  have hloop := emptyLoop_eq h hfuel
  rw [Nat.mul_zero, List.drop_zero, Nat.zero_add] at hloop
  simp only [addEntry, wp_bind, wp_get]
  rw [wp_of_ok hloop]
  have hname : (Dirent.mk (BitVec.ofNat 16 inum) (key name)).name.length = dirSiz :=
    length_key name
  refine (writeDirent_logs h hname List.findIdx_le_length).mono fun r s' hs' => ?_
  rw [wp_ite]
  split_ifs
  · trivial
  · exact hs'.1

theorem eraseEntry_logs (h : OpenDir s dp) {k : ℕ}
    (hk : k ≤ (s.view.dirents (s.icache dp).inum).length) :
    Wp (fun _ => True) (eraseEntry dp ip (deSize * k))
      (fun _ s' => Spends 2 (homes s.sb (s.icache dp).inum) s s') s := by
  have hname : Dirent.zero.name.length = dirSiz := by decide
  rw [eraseEntry, ← Dirent.toBytes_zero, wp_bind]
  refine (writeDirent_logs h hname hk).mono fun r s₁ hs₁ => ?_
  rw [wp_ite]
  split_ifs
  · trivial
  · simp only [wp_bind, wp_get]
    split_ifs
    · refine (setFields_logs s₁ dp _).mono fun _ s' hs' => ?_
      rw [hs₁.2.inum, hs₁.2.sb] at hs'
      exact hs₁.1.trans hs'.1.spends
    · exact hs₁.1

theorem ialloc_logs (s : State P) (type : Short) : Wp (fun _ => True) (ialloc rootDev type)
      (fun ip s' => Logs (homes s.sb (s'.icache ip).inum) s s') s := by
  simp only [ialloc, wp_bind, wp_modify, wp_get]
  split
  · rename_i i hfind
    simp only [logWrite, wp_bind, wp_modify]
    refine (iget_spec i fun _ => trivial).mono fun ip s' hgot => ?_
    rw [hgot.inum]
    refine ⟨[s.sb.iblock i], hgot.calm.logged, fun b hb => ?_⟩
    rw [List.mem_singleton.mp hb]
    exact Set.mem_insert _ _
  · trivial

/-! ### Giving up a reference -/

theorem iputFree_logs (hs : StoreOk s) (hpos : 0 < (s.icache ip).ref) :
    Wp (fun _ => False) (iputFree ip) (fun _ s' => StoreOk s' ∧
      Logs (homes s.sb (s.icache ip).inum) s s' ∧ s'.sb = s.sb ∧ s'.ftable = s.ftable ∧
      s'.proc = s.proc ∧ (∀ jp, jp ≠ ip → s'.icache jp = s.icache jp) ∧
      (s'.icache ip).ref = (s.icache ip).ref ∧ (s'.icache ip).inum = (s.icache ip).inum) s := by
  refine (iputFree_spec hs.disk fun hv => hs.cache.loaded ip hpos hv).mono fun _ s' hs' => ?_
  split_ifs at hs' with hlast
  · refine ⟨hs'.storeOk hs hpos, hs'.logs, hs'.sb, hs'.ftable, hs'.proc, fun jp hj => ?_, ?_,
      hs'.num ip⟩
    · rw [hs'.icache, update_of_ne hj]
    · rw [hs'.icache, update_self]
  · rw [hs']
    exact ⟨hs, .refl s, rfl, rfl, rfl, fun _ _ => rfl, rfl, rfl⟩

variable {extra : Slot → ℕ} {lk : Finset Slot} {F : Stop Panic Slot → Prop}

theorem wpx_iput_logs (hs : StoreOk s) (hlock : (s.icache ip).lock = none)
    (hpos : 0 < (s.icache ip).ref) :
    Wpx me F (Fs.iput ip) (fun _ s' => StoreOk s' ∧ Logs (homes s.sb (s.icache ip).inum) s s' ∧
      s'.sb = s.sb ∧ s'.ftable = s.ftable ∧ s'.proc = s.proc ∧ OnlyEntry ip s s' ∧
      (s'.icache ip).lock = none ∧ (s'.icache ip).ref = (s.icache ip).ref - 1) s := by
  simp only [Fs.iput, wpx_bind, wpx_lift, wp_modify]
  rw [wpx_acq hlock]
  set t : State P := Locks.setOwner (s.record .iput) ip (some me) with ht
  have htip : t.icache ip = { s.icache ip with lock := some me } := by
    rw [ht]
    exact update_self ..
  have htne (jp : Slot) (hj : jp ≠ ip) : t.icache jp = s.icache jp := by
    rw [ht]
    exact update_of_ne hj ..
  have hstore : StoreOk t := by
    have hs' : StoreOk (s.record .iput) := hs.congr rfl rfl rfl
    exact hs'.setInode hpos rfl rfl le_rfl fun hv =>
      ⟨(hs.cache.loaded ip hpos hv).copy, (hs.cache.loaded ip hpos hv).type_ne⟩
  refine ((iputFree_logs hstore (by rw [htip]; exact hpos)).weaken fun _ => False.elim).mono
    fun _ t' ht' => ?_
  obtain ⟨hstore', hlogs, hsb, hft, hproc, hne, hr, hi⟩ := ht'
  simp only [wpx_rel, wpx_yield, iputDrop, wp_modify]
  simp only [Locks.setOwner, State.setInode_setInode, State.setInode_icache, update_self]
  have hpos' : 0 < (t'.icache ip).ref := by rw [hr, htip]; exact hpos
  refine ⟨?_, ?_, hsb, hft, hproc, ⟨fun jp hj => ?_, ?_⟩, ?_, ?_⟩
  · exact hstore'.setInode hpos' rfl rfl (Nat.sub_le _ _) fun hv =>
      ⟨(hstore'.cache.loaded ip hpos' hv).copy, (hstore'.cache.loaded ip hpos' hv).type_ne⟩
  · rw [htip] at hlogs
    exact .trans (.of_eq rfl) (hlogs.trans (.of_eq rfl))
  · rw [State.setInode_icache, update_of_ne hj, hne jp hj, htne jp hj]
  · simp only [State.setInode_icache, update_self, hi, htip]
  · simp
  · simp only [hr, htip]

theorem Alone.iput_logs (h : Alone me s extra lk s') (hip : ip ∉ lk) (hpos : 0 < extra ip) :
    Wpx me F (Fs.iput ip) (fun _ s'' =>
      Alone me s (update extra ip (extra ip - 1)) lk s'' ∧
        Logs (homes s.sb (s'.icache ip).inum) s' s'' ∧
        OnlyEntry ip s' s'') s' := by
  refine (wpx_iput_logs h.store (h.lock_none hip) (h.ref_pos hpos)).mono fun _ s'' hs'' => ?_
  obtain ⟨hstore, hlogs, hsb, hft, hproc, honly, hlock, hr⟩ := hs''
  rw [h.sb] at hlogs
  refine ⟨h.step ip hsb hft hproc hstore honly.of_ne ?_ (fun _ _ => .rfl) ?_
    (fun jp hj => update_of_ne hj ..) fun _ => honly.self, hlogs, honly⟩
  · rw [hlock, if_neg hip]
  · have hcount := h.ref ip
    rw [hr, update_self]
    omega

theorem Alone.iunlockput_logs [DecidableEq P] (h : Alone me s extra lk s') (hip : ip ∈ lk)
    (hpos : 0 < extra ip) :
    Wpx me F (Fs.iunlockput me ip) (fun _ s'' =>
      Alone me s (update extra ip (extra ip - 1)) (lk.erase ip) s'' ∧
        Logs (homes s.sb (s'.icache ip).inum) s' s'' ∧
        OnlyEntry ip s' s'') s' := by
  rw [Fs.iunlockput, wpx_bind]
  refine (h.iunlock hip (h.ref_pos hpos)).mono fun _ s₁ hs₁ => ?_
  obtain ⟨h₁, hcalm, honly⟩ := hs₁
  refine (h₁.iput_logs (Finset.notMem_erase _ _) hpos).mono fun _ s'' hs'' => ?_
  rw [honly.self] at hs''
  exact ⟨hs''.1, .trans (.of_eq hcalm.logged) hs''.2.1, honly.trans hs''.2.2⟩

end Dave.Fs
