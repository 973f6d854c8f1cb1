import Dave.Fs.Entries

/-!
# The inode cache

The entries of the inode cache that are in use stand for different inodes, and those that have been
read are copies of the inodes on the disk. This file gives the effect of the functions that find,
allocate, read and store inodes, and shows that they keep the cache so.
-/

namespace Dave.Fs

open Function

variable {P : Type} {E : Panic → Prop} {s s' s'' : State P} {ip jp : Slot}

/-- The entries of the inode cache that are in use stand for different inodes, and those that have
been read are copies of the inodes on the disk. -/
structure CacheOk (s : State P) : Prop where
  inum_lt : ∀ ip, 0 < (s.icache ip).ref → (s.icache ip).inum < s.sb.ninodes
  dev_eq : ∀ ip, 0 < (s.icache ip).ref → (s.icache ip).dev = rootDev
  unique : ∀ ip jp, 0 < (s.icache ip).ref → 0 < (s.icache jp).ref →
    (s.icache ip).inum = (s.icache jp).inum → ip = jp
  loaded : ∀ ip, 0 < (s.icache ip).ref → (s.icache ip).valid = true → Loaded s ip

/-- Both the disk and the inode cache are in order. -/
structure StoreOk (s : State P) : Prop where
  disk : DiskOk s
  cache : CacheOk s

theorem StoreOk.congr (h : StoreOk s) (hsb : s'.sb = s.sb) (hview : s'.view = s.view)
    (hic : s'.icache = s.icache) : StoreOk s' where
  disk := ⟨hsb ▸ h.disk.ordered, hsb ▸ hview ▸ h.disk.owned, hview ▸ h.disk.mapped⟩
  cache := by
    obtain ⟨h1, h2, h3, h4⟩ := h.cache
    refine ⟨hsb ▸ hic ▸ h1, hic ▸ h2, hic ▸ h3, fun ip href hv => ?_⟩
    rw [hic] at href hv
    obtain ⟨g1, g2, g3⟩ := h4 ip href hv
    exact ⟨hsb ▸ hic ▸ g1, hview ▸ hic ▸ g2, hic ▸ g3⟩

/-! ### Finding an inode -/

/-- The effect of `iget`: another reference to an entry in use, or a new entry. -/
inductive Got (s : State P) (i : ℕ) (ip : Slot) : State P → Prop
  | hit (href : 0 < (s.icache ip).ref) (hi : (s.icache ip).inum = i) :
    Got s i ip (s.setInode ip { s.icache ip with ref := (s.icache ip).ref + 1 })
  | miss (href : (s.icache ip).ref = 0)
    (hnone : ∀ jp, 0 < (s.icache jp).ref → (s.icache jp).dev = rootDev → (s.icache jp).inum ≠ i) :
    Got s i ip (s.setInode ip
      { s.icache ip with dev := rootDev, inum := i, ref := 1, valid := false })

/-- `iget` returns an entry for the inode, unless all entries are in use. -/
theorem iget_spec (i : ℕ) (hE : (∀ jp, 0 < (s.icache jp).ref) → E .igetNoInodes) :
    Wp E (iget rootDev i) (fun ip s' => Got s i ip s') s := by
  simp only [iget, wp_bind, wp_get]
  split
  · rename_i ip hfind
    have hip := List.find?_some hfind
    simp only [Bool.decide_and, Bool.and_eq_true, decide_eq_true_eq] at hip
    exact .hit hip.1 hip.2.2
  · rename_i hnone
    split
    · rename_i ip hfind
      have hip := List.find?_some hfind
      refine .miss (by simpa using hip) fun jp href hdev hi => ?_
      have := List.find?_eq_none.mp hnone jp (List.mem_finRange jp)
      simp [href, hdev, hi] at this
    · rename_i hfull
      refine hE fun jp => Nat.pos_of_ne_zero fun hzero => ?_
      simpa [hzero] using List.find?_eq_none.mp hfull jp (List.mem_finRange jp)

namespace Got

variable {i : ℕ}

variable (h : Got s i ip s')

include h

theorem view : s'.view = s.view := by
  cases h <;> rfl

theorem sb : s'.sb = s.sb := by
  cases h <;> rfl

theorem disk : s'.disk = s.disk := by
  cases h <;> rfl

theorem ftable : s'.ftable = s.ftable := by
  cases h <;> rfl

theorem proc : s'.proc = s.proc := by
  cases h <;> rfl

theorem of_ne (hne : jp ≠ ip) : s'.icache jp = s.icache jp := by
  cases h <;> exact update_of_ne hne ..

theorem inum : (s'.icache ip).inum = i := by
  cases h with
  | hit _ hi => simpa using hi
  | miss => simp

theorem ref : (s'.icache ip).ref = (s.icache ip).ref + 1 := by
  cases h with
  | hit => simp
  | miss href => simp [href]

theorem lock : (s'.icache jp).lock = (s.icache jp).lock := by
  by_cases hne : jp = ip
  · subst hne
    cases h <;> simp
  · rw [h.of_ne hne]

theorem of_ref_pos (hpos : 0 < (s.icache ip).ref) :
    s'.icache ip = { s.icache ip with ref := (s.icache ip).ref + 1 } := by
  cases h with
  | hit => exact update_self ..
  | miss href => omega

theorem storeOk (hs : StoreOk s) (hi : i < s.sb.ninodes) : StoreOk s' := by
  have hne (jp : Slot) (hj : jp ≠ ip) := h.of_ne hj
  have hdisk : DiskOk s' :=
    ⟨h.sb ▸ hs.disk.ordered, h.sb ▸ h.view ▸ hs.disk.owned, h.view ▸ hs.disk.mapped⟩
  -- no other entry in use stands for the same inode
  have hother (jp : Slot) (hj : jp ≠ ip) (href : 0 < (s.icache jp).ref) :
      (s.icache jp).inum ≠ i := by
    cases h with
    | hit hpos heq => exact fun hji => hj (hs.cache.unique jp ip href hpos (hji.trans heq.symm))
    | miss _ hnone => exact hnone jp href (hs.cache.dev_eq jp href)
  refine ⟨hdisk, ⟨fun jp href => ?_, fun jp href => ?_, fun jp kp hj hk heq => ?_,
    fun jp href hv => ?_⟩⟩
  · by_cases hj : jp = ip
    · rw [hj, h.inum, h.sb]
      exact hi
    · rw [hne jp hj] at href ⊢
      rw [h.sb]
      exact hs.cache.inum_lt jp href
  · by_cases hj : jp = ip
    · subst hj
      cases h with
      | hit hpos => simpa using hs.cache.dev_eq jp hpos
      | miss => simp
    · rw [hne jp hj] at href ⊢
      exact hs.cache.dev_eq jp href
  · by_cases hj' : jp = ip
    · by_cases hk' : kp = ip
      · rw [hj', hk']
      · rw [hne kp hk'] at hk heq
        rw [hj', h.inum] at heq
        exact absurd heq.symm (hother kp hk' hk)
    · by_cases hk' : kp = ip
      · rw [hne jp hj'] at hj heq
        rw [hk', h.inum] at heq
        exact absurd heq (hother jp hj' hj)
      · rw [hne jp hj'] at hj heq
        rw [hne kp hk'] at hk heq
        exact hs.cache.unique jp kp hj hk heq
  · by_cases hj : jp = ip
    · subst hj
      cases h with
      | hit hpos =>
        simp only [State.setInode_icache, update_self] at hv
        obtain ⟨g1, g2, g3⟩ := hs.cache.loaded jp hpos hv
        constructor <;> simpa using by assumption
      | miss => simp at hv
    · rw [hne jp hj] at href hv
      obtain ⟨g1, g2, g3⟩ := hs.cache.loaded jp href hv
      refine ⟨?_, ?_, ?_⟩
      · rw [hne jp hj, h.sb]
        exact g1
      · rw [hne jp hj, h.view]
        exact g2
      · rw [hne jp hj]
        exact g3

end Got

/-! ### Changing an entry in use -/

theorem CacheOk.of_loaded (h : CacheOk s) (hsb : s'.sb = s.sb) {x : Inode P}
    (hic : s'.icache = update s.icache ip x) (hdev : x.dev = (s.icache ip).dev)
    (hinum : x.inum = (s.icache ip).inum) (href : x.ref ≤ (s.icache ip).ref)
    (hl : x.valid = true → Loaded s' ip)
    (hne : ∀ j, j ≠ (s.icache ip).inum → s'.view.dino j = s.view.dino j)
    (hpos : 0 < (s.icache ip).ref) : CacheOk s' := by
  have hself : s'.icache ip = x := by rw [hic, update_self]
  have hother (jp : Slot) (hj : jp ≠ ip) : s'.icache jp = s.icache jp := by
    rw [hic, update_of_ne hj]
  have hrefle (jp : Slot) (hj : 0 < (s'.icache jp).ref) : 0 < (s.icache jp).ref := by
    by_cases heq : jp = ip
    · rwa [heq]
    · rwa [hother jp heq] at hj
  have hinum' (jp : Slot) : (s'.icache jp).inum = (s.icache jp).inum := by
    by_cases heq : jp = ip
    · rw [heq, hself, hinum]
    · rw [hother jp heq]
  refine ⟨fun jp hj => ?_, fun jp hj => ?_, fun jp kp hj hk heq => ?_, fun jp hj hv => ?_⟩
  · rw [hinum', hsb]
    exact h.inum_lt jp (hrefle jp hj)
  · have hdev' : (s'.icache jp).dev = (s.icache jp).dev := by
      by_cases heq : jp = ip
      · rw [heq, hself, hdev]
      · rw [hother jp heq]
    rw [hdev']
    exact h.dev_eq jp (hrefle jp hj)
  · rw [hinum', hinum'] at heq
    exact h.unique jp kp (hrefle jp hj) (hrefle kp hk) heq
  · by_cases heq : jp = ip
    · subst heq
      rw [hself] at hv
      exact hl hv
    · have hjpos := hrefle jp hj
      rw [hother jp heq] at hv
      have hji : (s.icache jp).inum ≠ (s.icache ip).inum := fun hji =>
        heq (h.unique jp ip hjpos hpos hji)
      obtain ⟨g1, g2, g3⟩ := h.loaded jp hjpos hv
      refine ⟨?_, ?_, ?_⟩
      · rw [hinum', hsb]
        exact g1
      · rw [hother jp heq, hne _ hji]
        exact g2
      · rw [hother jp heq]
        exact g3

theorem Touch.storeOk (h : Touch ip s s') (hs : StoreOk s) (href : 0 < (s.icache ip).ref)
    (hdisk : DiskOk s') (hl : Loaded s' ip)
    (hne : ∀ j, j ≠ (s.icache ip).inum → s'.view.dino j = s.view.dino j) : StoreOk s' :=
  ⟨hdisk, hs.cache.of_loaded h.sb h.icache rfl rfl (Nat.le_refl _) (fun _ => hl) hne href⟩

theorem Stored.storeOk {new : List Byte} (h : Stored ip s s' new) (hs : StoreOk s)
    (href : 0 < (s.icache ip).ref) : StoreOk s' :=
  h.touch.storeOk hs href h.disk h.loaded h.dino_of_ne

theorem Entered.storeOk {j : ℕ} {de : Dirent} (h : Entered ip s s' j de) (hs : StoreOk s)
    (href : 0 < (s.icache ip).ref) : StoreOk s' :=
  h.touch.storeOk hs href h.openDir.disk h.openDir.loaded h.dino_of_ne

theorem Freed.storeOk (h : Freed ip s s') (hs : StoreOk s) (href : 0 < (s.icache ip).ref) :
    StoreOk s' :=
  ⟨h.disk, hs.cache.of_loaded h.sb h.icache rfl rfl (Nat.le_refl _) (fun hv => by simp at hv)
    h.dino_of_ne href⟩

theorem StoreOk.setInode (h : StoreOk s) {x : Inode P} (hpos : 0 < (s.icache ip).ref)
    (hdev : x.dev = (s.icache ip).dev) (hinum : x.inum = (s.icache ip).inum)
    (href : x.ref ≤ (s.icache ip).ref)
    (hl : x.valid = true → x.d = s.view.dino (s.icache ip).inum ∧ x.d.type ≠ 0) :
    StoreOk (s.setInode ip x) where
  disk := ⟨h.disk.ordered, h.disk.owned, h.disk.mapped⟩
  cache := by
    refine h.cache.of_loaded rfl rfl hdev hinum href (fun hv => ?_) (fun _ _ => rfl) hpos
    obtain ⟨hd, ht⟩ := hl hv
    refine ⟨?_, ?_, ?_⟩
    · rw [State.setInode_icache, update_self, hinum]
      exact h.cache.inum_lt ip hpos
    · rw [State.setInode_icache, update_self, hinum]
      exact hd
    · rw [State.setInode_icache, update_self]
      exact ht

/-! ### Reading and storing an inode -/

/-- The entry is read from the disk if that has not been done. -/
theorem fill_spec (hs : StoreOk s) (href : 0 < (s.icache ip).ref)
    (hE : (s.view.dino (s.icache ip).inum).type = 0 → E .ilockNoType) :
    Wp E (fill ip) (fun _ s' => s' = s.setInode ip
      { s.icache ip with d := s.view.dino (s.icache ip).inum, valid := true } ∧
      (s.view.dino (s.icache ip).inum).type ≠ 0) s := by
  simp only [fill, wp_bind, wp_get]
  have hdino := view_dino (hs.cache.inum_lt ip href)
  by_cases hv : (s.icache ip).valid = true
  · have hl := hs.cache.loaded ip href hv
    rw [if_neg (by simp [hv]), wp_pure]
    refine ⟨?_, hl.copy ▸ hl.type_ne⟩
    have hsame : { s.icache ip with d := s.view.dino (s.icache ip).inum, valid := true } =
        s.icache ip := by
      rw [← hl.copy, ← hv]
    rw [hsame, State.setInode, update_eq_self]
  · rw [if_pos (by simpa using hv)]
    simp only [wp_bind, wp_modify]
    rw [← hdino]
    by_cases ht : (s.view.dino (s.icache ip).inum).type = 0
    · rw [if_pos ht]
      exact hE ht
    · rw [if_neg ht]
      exact ⟨rfl, ht⟩

/-- The state after `ilock`: the lock is taken and the inode has been read. -/
def State.lockRead (s : State P) (ip : Slot) (me : P) : State P :=
  s.setInode ip
    { s.icache ip with
      lock := some me
      d := s.view.dino (s.icache ip).inum
      valid := true }

theorem StoreOk.lockRead (h : StoreOk s) (hpos : 0 < (s.icache ip).ref)
    (ht : (s.view.dino (s.icache ip).inum).type ≠ 0) (me : P) : StoreOk (s.lockRead ip me) :=
  h.setInode hpos rfl rfl le_rfl fun _ => ⟨rfl, ht⟩

theorem StoreOk.loaded_lockRead (h : StoreOk s) (hpos : 0 < (s.icache ip).ref)
    (ht : (s.view.dino (s.icache ip).inum).type ≠ 0) (me : P) : Loaded (s.lockRead ip me) ip :=
  (h.lockRead hpos ht me).cache.loaded ip (by simpa [State.lockRead] using hpos)
    (by simp [State.lockRead])

theorem fill_locked (hs : StoreOk s) (hpos : 0 < (s.icache ip).ref) (me : P)
    (hE : (s.view.dino (s.icache ip).inum).type = 0 → E .ilockNoType) :
    Wp E (fill ip) (fun _ s' => s' = s.lockRead ip me ∧ (s.view.dino (s.icache ip).inum).type ≠ 0)
      (s.setInode ip { s.icache ip with lock := some me }) := by
  have hstore : StoreOk (s.setInode ip { s.icache ip with lock := some me }) :=
    hs.setInode hpos rfl rfl le_rfl fun hv =>
      ⟨(hs.cache.loaded ip hpos hv).copy, (hs.cache.loaded ip hpos hv).type_ne⟩
  have hself : ((s.setInode ip { s.icache ip with lock := some me }).icache ip) =
      { s.icache ip with lock := some me } := update_self ..
  refine (fill_spec hstore (by rw [hself]; exact hpos) (by rw [hself]; exact hE)).mono
    fun _ s' hs' => ?_
  rwa [State.setInode_setInode, hself] at hs'

/-- The effect of changing fields of an inode other than its type, its size and its addresses, and
storing it. -/
structure FieldsSet (ip : Slot) (f : Dinode → Dinode) (s s' : State P) : Prop where
  touch : Touch ip s s'
  view : s'.view = s.view.setDino (s.icache ip).inum (f (s.icache ip).d)
  loaded : Loaded s' ip
  disk : DiskOk s'
  bytes : ∀ j, s'.view.bytes j = s.view.bytes j

variable {f : Dinode → Dinode}

/-- Fields other than the type, the size and the addresses are set and written. -/
theorem setFields_spec (h : DiskOk s) (hl : Loaded s ip) (ht : ∀ d, (f d).type = d.type)
    (hsz : ∀ d, (f d).size = d.size) (ha : ∀ d, (f d).addrs = d.addrs) :
    Wp E (do modifyInode ip f; iupdate ip) (fun _ s' => FieldsSet ip f s s') s := by
  simp only [modifyInode, wp_bind, wp_modify]
  refine (iupdate_focus (by exact h.ordered) ?_).mono ?_
  · simp only [State.setInode_icache, update_self, State.setInode_sb, hl.inum_lt]
  rintro _ s' ⟨hsame, hview⟩
  rw [focus_setInode, hl.focus] at hview
  have htouch : Touch ip s s' := (Touch.setInode s ip _).trans (.of_sameMem hsame)
  have hd : (s'.icache ip).d = f (s.icache ip).d := by
    rw [hsame.icache, State.setInode_icache, update_self]
  have hplace : s'.view.place = s.view.place := by
    rw [hview]
    refine View.place_setDino_eq fun k => ?_
    rw [Dinode.place_eq_of (ht _) (ha _), hl.copy]
    rfl
  have hdino (j : ℕ) : (s'.view.dino j).type = (s.view.dino j).type ∧
      (s'.view.dino j).size = (s.view.dino j).size := by
    rw [hview, View.setDino_dino]
    by_cases hj : j = (s.icache ip).inum
    · rw [hj, update_self, ht, hsz, hl.copy]
      exact ⟨rfl, rfl⟩
    · rw [update_of_ne hj]
      exact ⟨rfl, rfl⟩
  refine ⟨htouch, hview, ⟨?_, ?_, ?_⟩, ⟨htouch.sb ▸ h.ordered, ?_, fun j hj hdev => ?_⟩,
    fun j => ?_⟩
  · rw [htouch.inum, htouch.sb]
    exact hl.inum_lt
  · rw [htouch.inum, hd, hview, View.setDino_dino, update_self]
  · rw [hd, ht]
    exact hl.type_ne
  · exact htouch.sb ▸ h.owned.congr hplace (by rw [hview]; rfl)
  · rw [(hdino j).1] at hj hdev
    rw [(hdino j).2, hplace]
    exact h.mapped j hj hdev
  · refine View.bytes_congr (hdino j).2 fun n => ?_
    refine View.blk_congr (by rw [hplace]) fun b _ => ?_
    rw [hview]
    rfl

theorem FieldsSet.dino_of_ne (h : FieldsSet ip f s s') (j : ℕ) (hj : j ≠ (s.icache ip).inum) :
    s'.view.dino j = s.view.dino j := by
  rw [h.view, View.setDino_dino, update_of_ne hj]

theorem FieldsSet.storeOk (h : FieldsSet ip f s s') (hs : StoreOk s)
    (href : 0 < (s.icache ip).ref) : StoreOk s' :=
  h.touch.storeOk hs href h.disk h.loaded h.dino_of_ne

/-! ### Allocating an inode -/

/-- A step that marks the free inode `i` as allocated. -/
structure Marked (i : ℕ) (type : Short) (s s' : State P) : Prop where
  same : SameMem s s'
  pos : 0 < i
  lt : i < s.sb.ninodes
  free : (s.view.dino i).type = 0
  view : s'.view = s.view.setDino i { Dinode.zero with type := type }

/-- `ialloc` marks the first free inode, unless there is none. -/
theorem ialloc_spec (hsb : s.sb.Ordered) (type : Short)
    (hE : (∀ i, 0 < i → i < s.sb.ninodes → (s.view.dino i).type ≠ 0) → E .iallocNoInodes)
    (hE' : (∀ jp, 0 < (s.icache jp).ref) → E .igetNoInodes) :
    Wp E (ialloc rootDev type)
      (fun ip s' => ∃ i s₁, Marked i type s s₁ ∧ Got s₁ i ip s') s := by
  simp only [ialloc, wp_bind, wp_modify, wp_get]
  split
  · rename_i i hfind
    have hmem := List.mem_range'_1.mp (List.mem_of_find?_eq_some hfind)
    have hroot := hsb.root
    simp only [State.record_sb] at hmem
    have hlt : i < s.sb.ninodes := by omega
    have htype := List.find?_some hfind
    simp only [decide_eq_true_eq] at htype
    simp only [logWrite, wp_bind, wp_modify]
    refine (iget_spec i ?_).mono fun ip s' hgot => ⟨i, _, ⟨?_, by omega, hlt, ?_, ?_⟩, hgot⟩
    · exact hE'
    · exact ⟨rfl, rfl, rfl, rfl⟩
    · rw [view_dino hlt]
      exact htype
    · exact view_inodeBlock hsb hlt _
  · rename_i hnone
    refine hE fun i hpos hlt hzero => ?_
    have hmem : i ∈ List.range' 1 ((s.record .ialloc).sb.ninodes - 1) :=
      List.mem_range'_1.mpr ⟨hpos, by simp only [State.record_sb]; omega⟩
    rw [view_dino hlt] at hzero
    exact List.find?_eq_none.mp hnone i hmem (decide_eq_true hzero)

namespace Marked

variable {i : ℕ} {type : Short}

variable (h : Marked i type s s')

include h

theorem dino_of_ne {j : ℕ} (hj : j ≠ i) : s'.view.dino j = s.view.dino j := by
  rw [h.view, View.setDino_dino, update_of_ne hj]

theorem dino_self : s'.view.dino i = { Dinode.zero with type := type } := by
  rw [h.view, View.setDino_dino, update_self]

theorem place : s'.view.place = s.view.place := by
  rw [h.view]
  refine View.place_setDino_eq fun k => ?_
  rw [Dinode.place_zero rfl]
  exact (Dinode.place_of_free h.free k).symm

theorem bytes_of_ne {j : ℕ} (hj : j ≠ i) : s'.view.bytes j = s.view.bytes j := by
  refine View.bytes_congr (by rw [h.dino_of_ne hj]) fun n => ?_
  refine View.blk_congr (by rw [h.place]) fun b _ => ?_
  rw [h.view]
  rfl

theorem bytes_self : s'.view.bytes i = [] := by
  rw [View.bytes, h.dino_self]
  rfl

theorem storeOk (hs : StoreOk s) : StoreOk s' where
  disk := by
    refine ⟨h.same.sb ▸ hs.disk.ordered, ?_, fun j ht hdev => ?_⟩
    · exact h.same.sb ▸ hs.disk.owned.congr h.place (by rw [h.view]; rfl)
    · rw [h.place]
      by_cases hj : j = i
      · subst hj
        have hnone (k : ℕ) : s.view.place (j, k) = none := Dinode.place_of_free h.free k
        rw [h.dino_self, funext hnone]
        have hzero : nblk 0 = 0 := by decide
        change Mapped (fun _ => none) (nblk 0)
        rw [hzero]
        exact Mapped.empty
      · rw [h.dino_of_ne hj] at ht hdev ⊢
        exact hs.disk.mapped j ht hdev
  cache := by
    obtain ⟨h1, h2, h3, h4⟩ := hs.cache
    have hic := h.same.icache
    refine ⟨h.same.sb ▸ hic ▸ h1, hic ▸ h2, hic ▸ h3, fun ip href hv => ?_⟩
    rw [hic] at href hv
    obtain ⟨g1, g2, g3⟩ := h4 ip href hv
    -- an entry that has been read stands for an allocated inode
    have hne : (s.icache ip).inum ≠ i := by
      rintro rfl
      rw [g2] at g3
      exact g3 h.free
    refine ⟨?_, ?_, ?_⟩
    · rw [hic, h.same.sb]
      exact g1
    · rw [hic, h.dino_of_ne hne]
      exact g2
    · rw [hic]
      exact g3

end Marked

end Dave.Fs
