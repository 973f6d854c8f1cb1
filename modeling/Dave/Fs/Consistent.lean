import Dave.Fs.ReadWrite

/-!
# Consistent states

Between the steps of the code the disk is consistent: the block numbers and the free map are in
step, and every file has exactly the blocks for its size. An in-memory inode that has been read is
then a copy of the inode on the disk. This file proves that `readi` and `writei`, called in such a
state, read and replace a part of the list of bytes of the file, and that the state is consistent
afterwards.
-/

namespace Dave.Fs

open Nat List

variable {P : Type} {E : Panic → Prop} {s s' s'' : State P} {ip : Slot}

structure DiskOk (s : State P) : Prop where
  ordered : s.sb.Ordered
  owned : Owned s.sb s.view
  mapped : ∀ i, (s.view.dino i).type ≠ 0 → (s.view.dino i).type ≠ tDev →
    Mapped (fun k => s.view.place (i, k)) (nblk (s.view.dino i).size.toNat)

/-- An in-memory inode is a copy of an allocated inode on the disk. -/
structure Loaded (s : State P) (ip : Slot) : Prop where
  inum_lt : (s.icache ip).inum < s.sb.ninodes
  copy : (s.icache ip).d = s.view.dino (s.icache ip).inum
  type_ne : (s.icache ip).d.type ≠ 0

theorem Loaded.focus (h : Loaded s ip) : s.focus ip = s.view := by
  rw [State.focus, h.copy, View.setDino, Function.update_eq_self]

theorem DiskOk.held (h : DiskOk s) (hl : Loaded s ip) (hdev : (s.icache ip).d.type ≠ tDev) :
    Held s ip (nblk (s.icache ip).d.size.toNat) where
  ordered := h.ordered
  inum_lt := hl.inum_lt
  type_ne := hl.type_ne
  owned := hl.focus.symm ▸ h.owned
  mapped := by
    have htype := hl.type_ne
    rw [hl.copy] at htype hdev
    rw [hl.focus, hl.copy]
    exact h.mapped _ htype hdev

theorem DiskOk.size_le (h : DiskOk s) {i : ℕ} (ht : (s.view.dino i).type ≠ 0)
    (hdev : (s.view.dino i).type ≠ tDev) : (s.view.dino i).size.toNat ≤ maxFile * bSize :=
  nblk_le_iff.mp (h.mapped i ht hdev).le

/-! ### The bytes of a file -/

/-- The bytes of inode `i`. -/
def View.bytes (v : View) (i : ℕ) : List Byte :=
  (range (v.dino i).size.toNat).map (v.byte i)

@[simp] theorem View.length_bytes (v : View) (i : ℕ) :
    (v.bytes i).length = (v.dino i).size.toNat := by
  simp [View.bytes]

/-- The list `old` with the entries of `src` stored at index `off`. -/
def splice {α : Type} (old : List α) (off : ℕ) (src : List α) : List α :=
  old.take off ++ src ++ old.drop (off + src.length)

variable {off : ℕ} {src : List Byte}

theorem map_range_splice {f g : ℕ → Byte} (size : ℕ) (hoff : off ≤ size)
    (hg : ∀ n, g n = if off ≤ n ∧ n < off + src.length then src.getD (n - off) 0 else f n) :
    (range (max size (off + src.length))).map g = splice ((range size).map f) off src := by
  have htake : ((range size).map f).take off = (range' 0 off).map g := by
    rw [← map_take, take_range, min_eq_left hoff, range_eq_range']
    refine map_congr_left fun n hn => ?_
    rw [hg, if_neg (by rw [mem_range'_1] at hn; omega)]
  have hdrop : ((range size).map f).drop (off + src.length) =
      (range' (off + src.length) (size - (off + src.length))).map g := by
    rw [← map_drop, range_eq_range', drop_range', mul_one, zero_add]
    refine map_congr_left fun n hn => ?_
    rw [hg, if_neg (by rw [mem_range'_1] at hn; omega)]
  have hsrc : src = (range' off src.length).map g := by
    refine ext_getElem (by simp) fun k hk _ => ?_
    rw [getElem_map, getElem_range', hg, if_pos (by omega)]
    simp [hk]
  have hsplit : max size (off + src.length) =
      off + src.length + (size - (off + src.length)) := by omega
  rw [splice, htake, hdrop, hsplit, range_eq_range', ← range'_append_1,
    ← range'_append_1, map_append, map_append, zero_add, zero_add, ← hsrc]

theorem View.bytes_congr {v v' : View} {i : ℕ} (hsize : (v'.dino i).size = (v.dino i).size)
    (hblk : ∀ n, v'.blk i n = v.blk i n) : v'.bytes i = v.bytes i := by
  rw [View.bytes, View.bytes, hsize]
  refine map_congr_left fun n _ => ?_
  rw [View.byte, View.byte, hblk]

/-! ### Storing an inode -/

/-- A step that replaces the bytes of one file by `new`. -/
structure Stored (ip : Slot) (s s' : State P) (new : List Byte) : Prop where
  touch : Touch ip s s'
  disk : DiskOk s'
  loaded : Loaded s' ip
  fields : s'.view.dino (s.icache ip).inum = { s.view.dino (s.icache ip).inum with
      size := (s'.view.dino (s.icache ip).inum).size
      addrs := (s'.view.dino (s.icache ip).inum).addrs }
  bytes : s'.view.bytes (s.icache ip).inum = new
  dino_of_ne : ∀ j, j ≠ (s.icache ip).inum → s'.view.dino j = s.view.dino j
  bytes_of_ne : ∀ j, j ≠ (s.icache ip).inum → s'.view.bytes j = s.view.bytes j
  free : s'.view.free s.sb + blocksOf (nblk (s'.view.dino (s.icache ip).inum).size.toNat) =
    s.view.free s.sb + blocksOf (nblk (s.view.dino (s.icache ip).inum).size.toNat)

theorem iupdate_focus (h : s.sb.Ordered) (hi : (s.icache ip).inum < s.sb.ninodes) :
    Wp E (iupdate ip) (fun _ s' => SameMem s s' ∧ s'.view = s.focus ip) s := by
  simp only [iupdate, wp_bind, wp_modify, wp_get, logWrite]
  exact ⟨⟨rfl, rfl, rfl, rfl⟩, view_inodeBlock h hi _⟩

theorem iupdate_logs (s : State P) (ip : Slot) : Wp (fun _ => True) (iupdate ip)
      (fun _ s' => Logs {s.sb.iblock (s.icache ip).inum} s s') s := by
  simp only [iupdate, wp_bind, wp_modify, wp_get, logWrite]
  exact .trans (.of_eq rfl) (.logWrite (Set.mem_singleton _) (s.record .iupdate) _)

theorem DiskOk.of_grown {nb : ℕ} {s₁ : State P} (h : DiskOk s) (hl : Loaded s ip)
    (hg : Grown ip s s₁) (hh : Held s₁ ip nb) (hsb : s'.sb = s.sb)
    (hplace : s'.view.place = (s₁.focus ip).place) (hused : s'.view.used = (s₁.focus ip).used)
    (hdino : ∀ j, j ≠ (s.icache ip).inum → s'.view.dino j = s.view.dino j)
    (hsize : nblk (s'.view.dino (s.icache ip).inum).size.toNat = nb) : DiskOk s' where
  ordered := hsb ▸ h.ordered
  owned := by
    rw [hsb, ← hg.touch.sb]
    exact hh.owned.congr hplace hused
  mapped j ht hdev := by
    by_cases hj : j = (s.icache ip).inum
    · subst hj
      rw [hsize, hplace, ← hg.touch.inum]
      exact hh.mapped
    · rw [hdino j hj] at ht hdev ⊢
      have hold : (fun k => s'.view.place (j, k)) = fun k => s.view.place (j, k) := by
        funext k
        rw [hplace, hg.place j hj k, hl.focus]
      rw [hold]
      exact h.mapped j ht hdev

theorem Stored.of_same (h : DiskOk s) (hl : Loaded s ip)
    (hw : WritePost s ip (nblk (s.icache ip).d.size.toNat) off src s')
    (hend : off + src.length ≤ (s.icache ip).d.size.toNat) :
    Stored ip s s' (splice (s.view.bytes (s.icache ip).inum) off src) := by
  have hnb : off + src.length ≤ nblk (s.icache ip).d.size.toNat * bSize :=
    hend.trans (nblk_le_iff.mp (le_refl _))
  have hic : s'.icache = s.icache := hw.same hnb
  have hl' : Loaded s' ip := by
    refine ⟨?_, ?_, ?_⟩
    · rw [hic, hw.grown.touch.sb]
      exact hl.inum_lt
    · rw [hic, hw.grown.dino]
      exact hl.copy
    · rw [hic]
      exact hl.type_ne
  have hdino : s'.view.dino = s.view.dino := hw.grown.dino
  refine ⟨hw.grown.touch, ?_, hl', by rw [hdino], ?_, fun j _ => by rw [hdino], fun j hj => ?_, ?_⟩
  · refine h.of_grown hl hw.grown hw.held hw.grown.touch.sb (by rw [hl'.focus])
      (by rw [hl'.focus]) (fun j _ => by rw [hdino]) ?_
    rw [hdino, ← hl.copy, max_eq_left (nblk_le_iff.mpr hnb)]
  · have hbyte := hw.byte
    rw [hl'.focus, hl.focus] at hbyte
    have hsplice := map_range_splice (s.icache ip).d.size.toNat (by omega) hbyte
    rw [max_eq_left hend] at hsplice
    rw [View.bytes, View.bytes, hdino, ← hl.copy]
    exact hsplice
  · have hblk := hw.grown.blk j hj
    rw [hl'.focus, hl.focus] at hblk
    exact View.bytes_congr (by rw [hdino]) hblk
  · have hfree := hw.free
    rw [hl'.focus, hl.focus, max_eq_left (nblk_le_iff.mpr hnb), hl.copy] at hfree
    rwa [hdino]

theorem View.place_setSize (v : View) (i : ℕ) (w : Word) :
    (v.setDino i { v.dino i with size := w }).place = v.place :=
  View.place_setDino_eq fun _ => rfl

theorem View.blk_setSize (v : View) (i j n : ℕ) (w : Word) :
    (v.setDino i { v.dino i with size := w }).blk j n = v.blk j n :=
  View.blk_congr (by rw [View.place_setSize]) fun _ _ => rfl

theorem Stored.of_grow {s₁ : State P} (h : DiskOk s) (hl : Loaded s ip)
    (hw : WritePost s ip (nblk (s.icache ip).d.size.toNat) off src s₁)
    (hoff : off ≤ (s.icache ip).d.size.toNat)
    (hend : (s.icache ip).d.size.toNat < off + src.length) {w : Word}
    (hsize : w.toNat = off + src.length) (hsame : SameMem
      (s₁.setInode ip { s₁.icache ip with d := { (s₁.icache ip).d with size := w } }) s')
    (hview : s'.view =
      (s₁.setInode ip { s₁.icache ip with d := { (s₁.icache ip).d with size := w } }).focus ip) :
    Stored ip s s' (splice (s.view.bytes (s.icache ip).inum) off src) := by
  have hinum := hw.grown.touch.inum
  rw [focus_setInode, ← focus_dino s₁ ip, hinum] at hview
  have htouch : Touch ip s s' :=
    (hw.grown.touch.trans (.setInode s₁ ip _)).trans (.of_sameMem hsame)
  have hd : (s'.icache ip).d = { (s₁.icache ip).d with size := w } := by
    rw [hsame.icache, State.setInode_icache, Function.update_self]
  have hdi : s'.view.dino (s.icache ip).inum = (s'.icache ip).d := by
    rw [hview, View.setDino_dino, Function.update_self, hd, ← hinum, focus_dino]
  have hne (j : ℕ) (hj : j ≠ (s.icache ip).inum) : s'.view.dino j = s.view.dino j := by
    rw [hview, View.setDino_dino, Function.update_of_ne hj, State.focus, View.setDino_dino,
      hinum, Function.update_of_ne hj, hw.grown.dino]
  have hw' : (s'.icache ip).d.size = w := by rw [hd]
  refine ⟨htouch, ?_, ⟨?_, ?_, ?_⟩, ?_, ?_, hne, fun j hj => ?_, ?_⟩
  · refine h.of_grown hl hw.grown hw.held htouch.sb ?_ ?_ hne ?_
    · rw [hview, View.place_setSize]
    · rw [hview, View.setDino_used]
    · rw [hdi, hw', hsize, max_eq_right (nblk_mono hend.le)]
  · rw [htouch.inum, htouch.sb]
    exact hl.inum_lt
  · rw [htouch.inum, hdi]
  · rw [hd]
    exact hw.held.type_ne
  · rw [hdi, hd, hw.grown.fields, ← hl.copy]
  · have hbyte := hw.byte
    rw [hl.focus] at hbyte
    have hsplice := map_range_splice (s.icache ip).d.size.toNat hoff hbyte
    rw [max_eq_right hend.le] at hsplice
    rw [View.bytes, View.bytes, hdi, hw', hsize, ← hl.copy, ← hsplice]
    refine map_congr_left fun n _ => ?_
    rw [View.byte, View.byte, hview, View.blk_setSize]
  · refine View.bytes_congr (by rw [hne j hj]) fun n => ?_
    rw [hview, View.blk_setSize, hw.grown.blk j hj, hl.focus]
  · have hfree := hw.free
    rw [hl.focus, max_eq_right (nblk_mono hend.le), hl.copy] at hfree
    rw [hdi, hw', hsize, ← hfree, hview, View.free, View.free, View.setDino_used]

/-- The conditions under which `writei` writes. -/
def CanWrite (size off n : Word) : Prop :=
  off ≤ size ∧ off.toNat + n.toNat < 2 ^ 32 ∧ off.toNat + n.toNat ≤ maxFile * bSize

instance (size off n : Word) : Decidable (CanWrite size off n) :=
  inferInstanceAs (Decidable (_ ∧ _))

/-- `writei` stores the bytes in the file exactly when they fit; otherwise it returns `-1` and
changes nothing. It fails only if the free blocks do not suffice. -/
theorem writeData_spec (h : DiskOk s) (hl : Loaded s ip) (hdev : (s.icache ip).d.type ≠ tDev)
    {off : Word} (hsrc : src.length < 2 ^ 32)
    (hE : CanWrite (s.icache ip).d.size off (BitVec.ofNat 32 src.length) →
      s.view.free s.sb + blocksOf (nblk (s.icache ip).d.size.toNat) <
      blocksOf (max (nblk (s.icache ip).d.size.toNat) (nblk (off.toNat + src.length))) →
      E .outOfBlocks) :
    Wp E (writeData ip src off) (fun r s' =>
      if CanWrite (s.icache ip).d.size off (BitVec.ofNat 32 src.length) then
        r = some src.length ∧
          Stored ip s s' (splice (s.view.bytes (s.icache ip).inum) off.toNat src)
      else r = none ∧ s' = s) s := by
  have hlen : (BitVec.ofNat 32 src.length).toNat = src.length := by
    rw [BitVec.toNat_ofNat, mod_eq_of_lt hsrc]
  have hmaxf : (BitVec.ofNat 32 (maxFile * bSize)).toNat = maxFile * bSize := by decide
  have hoffn := off.isLt
  have hcan : CanWrite (s.icache ip).d.size off (BitVec.ofNat 32 src.length) ↔
      off.toNat ≤ (s.icache ip).d.size.toNat ∧ off.toNat + src.length < 2 ^ 32 ∧
        off.toNat + src.length ≤ maxFile * bSize := by
    rw [CanWrite, hlen, BitVec.le_def]
  simp only [writeData, wp_bind, wp_get, gt_iff_lt, BitVec.lt_def, BitVec.toNat_add, hlen, hmaxf,
    hcan]
  by_cases hbad : (s.icache ip).d.size.toNat < off.toNat ∨
      (off.toNat + src.length) % 2 ^ 32 < off.toNat
  · rw [if_pos hbad, wp_pure, if_neg (by omega)]
    exact ⟨rfl, rfl⟩
  rw [if_neg hbad]
  by_cases hbig : maxFile * bSize < (off.toNat + src.length) % 2 ^ 32
  · rw [if_pos hbig, wp_pure, if_neg (by omega)]
    exact ⟨rfl, rfl⟩
  have hok : off.toNat ≤ (s.icache ip).d.size.toNat ∧ off.toNat + src.length < 2 ^ 32 ∧
      off.toNat + src.length ≤ maxFile * bSize := by omega
  have hmod : (off.toNat + src.length) % 2 ^ 32 = off.toNat + src.length :=
    mod_eq_of_lt hok.2.1
  have hoff : off.toNat ≤ nblk (s.icache ip).d.size.toNat * bSize :=
    hok.1.trans (nblk_le_iff.mp (le_refl _))
  rw [if_neg hbig, wp_bind]
  refine (writeLoop_spec (h.held hl hdev) (le_refl _) hoff hok.2.2 ?_).mono
    fun _ s₁ hw => ?_
  · rw [hl.focus]
    exact hE (hcan.mpr hok)
  simp only [hok, and_self, ↓reduceIte, hmod]
  by_cases hgrow : (0 : Word).toNat < src.length ∧
      (s.icache ip).d.size.toNat < off.toNat + src.length
  · rw [if_pos hgrow]
    simp only [modifyInode, wp_bind, wp_modify]
    refine (iupdate_focus (by exact hw.held.ordered) ?_).mono fun _ s' hs' => ⟨rfl, ?_⟩
    · simp only [State.setInode_icache, Function.update_self, State.setInode_sb, hw.held.inum_lt]
    exact .of_grow h hl hw hok.1 hgrow.2 (by rw [BitVec.toNat_add, hlen, hmod]) hs'.1 hs'.2
  · rw [if_neg hgrow]
    refine ⟨rfl, .of_same h hl hw ?_⟩
    simp only [BitVec.ofNat_eq_ofNat, BitVec.toNat_ofNat, zero_mod] at hgrow
    omega

/-- The conditions under which `readi` reads. -/
def CanRead (size off n : Word) : Prop := off ≤ size ∧ off.toNat + n.toNat < 2 ^ 32

instance (size off n : Word) : Decidable (CanRead size off n) :=
  inferInstanceAs (Decidable (_ ∧ _))

theorem readData_eq (h : DiskOk s) (hl : Loaded s ip) (hdev : (s.icache ip).d.type ≠ tDev)
    (off n : Word) :
    readData ip off n s = .ok
      (if CanRead (s.icache ip).d.size off n then
        some (((s.view.bytes (s.icache ip).inum).drop off.toNat).take n.toNat)
      else none, s) := by
  have hoffn := off.isLt
  have hnlt := n.isLt
  have hszlt := (s.icache ip).d.size.isLt
  have hsize := nblk_le_iff.mp (le_refl (nblk (s.icache ip).d.size.toNat))
  have hcan : CanRead (s.icache ip).d.size off n ↔
      off.toNat ≤ (s.icache ip).d.size.toNat ∧ off.toNat + n.toNat < 2 ^ 32 := by
    rw [CanRead, BitVec.le_def]
  have hbytes (m : ℕ) (hm : off.toNat + m ≤ (s.icache ip).d.size.toNat) :
      readLoop ip m off.toNat m s =
        .ok (((s.view.bytes (s.icache ip).inum).drop off.toNat).take m, s) := by
    rw [readLoop_eq (h.held hl hdev) (le_refl m) (by omega), hl.focus, View.bytes, ← hl.copy,
      ← map_drop, ← map_take, range_eq_range', drop_range', take_range'_of_length_ge (by omega),
      mul_one, zero_add]
  refine eq_ok_of_wp ?_
  simp only [readData, wp_bind, wp_get, gt_iff_lt, BitVec.lt_def, BitVec.toNat_add]
  by_cases hbad : (s.icache ip).d.size.toNat < off.toNat ∨
      (off.toNat + n.toNat) % 2 ^ 32 < off.toNat
  · rw [if_pos hbad, if_neg (by rw [hcan]; omega)]
    exact ⟨rfl, rfl⟩
  rw [if_neg hbad, if_pos (c := CanRead _ _ _) (by rw [hcan]; omega), wp_bind]
  have hmod : (off.toNat + n.toNat) % 2 ^ 32 = off.toNat + n.toNat :=
    mod_eq_of_lt (by omega)
  by_cases hshort : (s.icache ip).d.size.toNat < off.toNat + n.toNat
  · have hn : ((s.icache ip).d.size - off).toNat = (s.icache ip).d.size.toNat - off.toNat :=
      BitVec.toNat_sub_of_le (by rw [BitVec.le_def]; omega)
    simp only [hmod, hshort, ↓reduceIte, hn]
    rw [wp_of_ok (hbytes _ (by omega))]
    refine ⟨congrArg some ?_, rfl⟩
    rw [take_of_length_le (by simp [hl.copy]), take_of_length_le (by simp [← hl.copy]; omega)]
  · simp only [hmod, hshort, ↓reduceIte]
    rw [wp_of_ok (hbytes _ (by omega))]
    exact ⟨rfl, rfl⟩

end Dave.Fs
