import Dave.Fs.Image

/-!
# The disk in every state

What the disk and the inode cache satisfy in every state that the processes reach, whatever calls
they run and however these interleave: every block has one owner, files have no holes, the inode
cache agrees with the disk, and reading and writing an inode is reading and writing a list of bytes.
-/

namespace Dave.Fs

open Interleave

variable {P : Type} {s : State P}

theorem DiskOk.balloc_isData (h : DiskOk s) {b : ℕ} {s' : State P}
    (hret : balloc s = .ok (b, s')) : s.sb.IsData b := by
  have hspec : Wp (fun _ => True) balloc (fun b _ => s.sb.IsData b) s := by
    simp only [balloc, wp_bind, wp_modify, wp_get]
    cases hfind : (List.range (s.record .balloc).sb.size).find? fun b =>
        !(s.record .balloc).bit b with
    | none => trivial
    | some c =>
      simp only [logWrite, bzero, wp_bind, wp_modify, wp_pure]
      have hlt : c < s.sb.size := List.mem_range.mp (List.mem_of_find?_eq_some hfind)
      have hbit : s.bit c = false := by simpa using List.find?_some hfind
      refine ⟨not_lt.mp fun hlow => ?_, hlt⟩
      have hused := h.owned.low c hlow
      rw [view_used hlt, hbit] at hused
      cases hused
  exact hspec.of_ok hret

section Exec

variable [DecidableEq P] {p : P} {ip : Slot} {s' : State P}

theorem readi_exec (hdev : (s.icache ip).d.type ≠ tDev) {off n : Word}
    {input r : Option (List Byte)}
    (h : readData ip off n s = .ok (r, s')) : (readi p ip off n input).exec p s = .ok (r, s') := by
  have hread : (readi p ip off n input).exec p s =
      (Prog.lift (readData ip off n) : Kernel P _).exec p s := by
    rw [readi, Prog.exec_bind]
    simp only [Prog.lift, Prog.exec, bind, StateT.bind, Except.bind, get, getThe, MonadStateOf.get,
      StateT.get, pure, Except.pure, pure_eq_ok, hdev, if_false]
  rw [hread, Prog.exec_lift_of_ok h]

theorem writei_exec (hdev : (s.icache ip).d.type ≠ tDev) {off : Word} {src : List Byte}
    {r : Option ℕ} (h : writeData ip src off s = .ok (r, s')) :
    (writei p ip src off).exec p s = .ok (r, s') := by
  have hwrite : (writei p ip src off).exec p s =
      (Prog.lift (writeData ip src off) : Kernel P _).exec p s := by
    rw [writei, Prog.exec_bind]
    simp only [Prog.lift, Prog.exec, bind, StateT.bind, Except.bind, get, getThe, MonadStateOf.get,
      StateT.get, pure, Except.pure, pure_eq_ok, hdev, if_false]
  rw [hwrite, Prog.exec_lift_of_ok h]

end Exec

theorem exists_written : ∃ m, Reached (fun _ _ => True) imageSys m ∧
    m.shared.view.place (2, 1) = some 7 ∧ (m.shared.view.dino 2).type = tFile ∧
    0 < (m.shared.icache 1).ref ∧ (m.shared.icache 1).valid = true ∧ m.shared.num 1 = 2 ∧
    (m.shared.view.dino 2).size = 600 ∧ 20 ≤ m.shared.view.free m.shared.sb := by
  have hplay : (play (fun _ _ => true) imageSys [.call 0 (.open (some [102]) 0x202), .steps 0 100,
      .call 0 (.write 0 (List.replicate 600 65)), .steps 0 100]).any (fun m =>
        m.shared.view.place (2, 1) = some 7 && (m.shared.view.dino 2).type = tFile &&
          0 < (m.shared.icache 1).ref && (m.shared.icache 1).valid && m.shared.num 1 = 2 &&
          (m.shared.view.dino 2).size = 600 && 20 ≤ m.shared.view.free m.shared.sb) = true := by
    decide +kernel
  obtain ⟨m, hm, hcheck⟩ := (Option.any_eq_true _ _).mp hplay
  simp only [Bool.and_eq_true, decide_eq_true_eq] at hcheck
  obtain ⟨⟨⟨⟨⟨⟨h1, h2⟩, h3⟩, h4⟩, h5⟩, h6⟩, h7⟩ := hcheck
  have hreach := reached_of_play hm
  simp only at hreach
  exact ⟨m, hreach, h1, h2, h3, h4, h5, h6, h7⟩

variable [Fintype P] [DecidableEq P] {m₀ m : KernelSys P}

/-- In every state that the processes reach: a block number in an allocated inode or in its indirect
block is that of a data block that is marked as used; no block number occurs twice; every data block
that is marked as used occurs. No block is freed that is free, and `balloc` hands out data blocks
only. -/
theorem blocks_owned (h : Reached (fun _ _ => True) m₀ m) :
    (∀ p b, m.shared.view.place p = some b →
      m.shared.sb.IsData b ∧ m.shared.view.used b = true) ∧
    (∀ p q b, m.shared.view.place p = some b → m.shared.view.place q = some b → p = q) ∧
    (∀ b, m.shared.sb.IsData b → m.shared.view.used b = true →
      ∃ p, m.shared.view.place p = some b) ∧
    m.panic ≠ some .freeingFreeBlock ∧
    ∀ b s', balloc m.shared = .ok (b, s') → m.shared.sb.IsData b := by
  obtain ⟨gs, hbase, -⟩ := h.base
  have hdisk := hbase.store.disk
  have hledger := hdisk.owned.ledger
  refine ⟨fun p b hp => ?_, fun p q b => hledger.injective, fun b hb hused => ?_, fun hpanic => ?_,
    fun b s' => hdisk.balloc_isData⟩
  · exact ⟨Superblock.mem_pool.mp (hledger.mem hp), hledger.used_of_own hp⟩
  · exact (hledger.used_iff (Superblock.mem_pool.mpr hb)).mp hused
  · exact h.inv.2 _ hpanic rfl

/-- The second block of the file is block 7. -/
theorem blocks_owned_written : ∃ m, Reached (fun _ _ => True) imageSys m ∧
    m.shared.view.place (2, 1) = some 7 ∧ m.shared.sb.IsData 7 ∧ m.shared.view.used 7 = true := by
  obtain ⟨m, hreach, hplace, -⟩ := exists_written
  exact ⟨m, hreach, hplace, (blocks_owned hreach).1 _ _ hplace⟩

/-- In every state that the processes reach, an allocated inode that is not a device has exactly the
blocks that its size asks for, and an indirect block exactly if that is more than the direct
addresses can name. An entry of the inode cache that is valid is a copy of the inode on the disk,
and reading it changes nothing. -/
theorem no_holes (h : Reached (fun _ _ => True) m₀ m) :
    (∀ i, (m.shared.view.dino i).type ≠ 0 → (m.shared.view.dino i).type ≠ tDev →
      (∀ n < maxFile, m.shared.view.place (i, fileIdx n) ≠ none ↔
        n < nblk (m.shared.view.dino i).size.toNat) ∧
      (m.shared.view.place (i, nDirect) ≠ none ↔
        nDirect * bSize < (m.shared.view.dino i).size.toNat)) ∧
    ∀ ip, 0 < (m.shared.icache ip).ref → (m.shared.icache ip).valid = true →
      (m.shared.icache ip).d = m.shared.view.dino (m.shared.icache ip).inum ∧
      ((m.shared.icache ip).d.type ≠ tDev → ∀ off n,
        ∃ r, readData ip off n m.shared = .ok (r, m.shared)) := by
  obtain ⟨gs, hbase, -⟩ := h.base
  have hdisk := hbase.store.disk
  refine ⟨fun i htype hdev => ?_, fun ip hpos hvalid => ?_⟩
  · have hmap := hdisk.mapped i htype hdev
    exact ⟨hmap.file, hmap.indirect.trans lt_nblk_iff⟩
  · have hload := hbase.store.cache.loaded ip hpos hvalid
    exact ⟨hload.copy, fun hdev off n => ⟨_, readData_eq hdisk hload hdev off n⟩⟩

/-- The file of 600 bytes has a second block and no third one. -/
theorem no_holes_written : ∃ m, Reached (fun _ _ => True) imageSys m ∧
    (m.shared.view.dino 2).size = 600 ∧ m.shared.view.place (2, fileIdx 1) ≠ none ∧
    m.shared.view.place (2, fileIdx 2) = none ∧ (m.shared.icache 1).d = m.shared.view.dino 2 := by
  obtain ⟨m, hreach, -, htype, hpos, hvalid, hnum, hsize, -⟩ := exists_written
  obtain ⟨hfile, hcache⟩ := no_holes hreach
  obtain ⟨hblocks, -⟩ := hfile 2 (by rw [htype]; decide) (by rw [htype]; decide)
  have hnblk : nblk (m.shared.view.dino 2).size.toNat = 2 := by
    rw [hsize]
    decide
  rw [hnblk] at hblocks
  have hcopy : (m.shared.icache 1).d = m.shared.view.dino (m.shared.num 1) :=
    (hcache 1 hpos hvalid).1
  rw [hnum] at hcopy
  exact ⟨m, hreach, hsize, (hblocks 1 (by decide)).mpr (by decide),
    not_not.mp fun h => absurd ((hblocks 2 (by decide)).mp h) (by decide), hcopy⟩

/-- In every state that the processes reach, `readi` and `writei` of an inode that is not a device
read and write the list of its bytes, as far as its size and the size of files allow, and leave the
other inodes alone. A write that is refused changes nothing; one that is not needs enough free
blocks. -/
theorem inodes_refine_lists (h : Reached (fun _ _ => True) m₀ m) (p : P) {ip : Slot}
    (hpos : 0 < (m.shared.icache ip).ref) (hvalid : (m.shared.icache ip).valid = true)
    (hdev : (m.shared.view.dino (m.shared.num ip)).type ≠ tDev) :
    (∀ off n input, (readi p ip off n input).exec p m.shared = .ok
      (if off.toNat ≤ (m.shared.view.bytes (m.shared.num ip)).length ∧
          off.toNat + n.toNat < 2 ^ 32 then
        some (((m.shared.view.bytes (m.shared.num ip)).drop off.toNat).take n.toNat)
      else none, m.shared)) ∧
    ∀ (off : Word) (src : List Byte), src.length < 2 ^ 32 →
      if off.toNat ≤ (m.shared.view.bytes (m.shared.num ip)).length ∧
          off.toNat + src.length < 2 ^ 32 ∧ off.toNat + src.length ≤ maxFile * bSize then
        blocksOf (max (nblk (m.shared.view.bytes (m.shared.num ip)).length)
            (nblk (off.toNat + src.length))) ≤
          m.shared.view.free m.shared.sb +
            blocksOf (nblk (m.shared.view.bytes (m.shared.num ip)).length) →
        ∃ s', (writei p ip src off).exec p m.shared = .ok (some src.length, s') ∧
          s'.view.bytes (m.shared.num ip) =
            (m.shared.view.bytes (m.shared.num ip)).take off.toNat ++ src ++
              (m.shared.view.bytes (m.shared.num ip)).drop (off.toNat + src.length) ∧
          ∀ j, j ≠ m.shared.num ip → s'.view.bytes j = m.shared.view.bytes j
      else (writei p ip src off).exec p m.shared = .ok (none, m.shared) := by
  obtain ⟨gs, hbase, -⟩ := h.base
  have hdisk := hbase.store.disk
  have hload := hbase.store.cache.loaded ip hpos hvalid
  have hdev' : (m.shared.icache ip).d.type ≠ tDev := by rwa [hload.copy]
  have hsize : (m.shared.icache ip).d.size.toNat =
      (m.shared.view.bytes (m.shared.num ip)).length := by
    rw [View.length_bytes, hload.copy]
  refine ⟨fun off n input => ?_, fun off src hsrc => ?_⟩
  · have hread := readData_eq hdisk hload hdev' off n
    have hcan : CanRead (m.shared.icache ip).d.size off n ↔
        off.toNat ≤ (m.shared.view.bytes (m.shared.num ip)).length ∧
          off.toNat + n.toNat < 2 ^ 32 := by
      rw [CanRead, BitVec.le_def, hsize]
    rw [if_congr hcan rfl rfl] at hread
    exact readi_exec hdev' hread
  · have hlen : (BitVec.ofNat 32 src.length).toNat = src.length := by
      rw [BitVec.toNat_ofNat, Nat.mod_eq_of_lt hsrc]
    have hcan : CanWrite (m.shared.icache ip).d.size off (BitVec.ofNat 32 src.length) ↔
        off.toNat ≤ (m.shared.view.bytes (m.shared.num ip)).length ∧
          off.toNat + src.length < 2 ^ 32 ∧ off.toNat + src.length ≤ maxFile * bSize := by
      rw [CanWrite, BitVec.le_def, hsize, hlen]
    rw [← if_congr hcan rfl rfl]
    split_ifs with hok
    · intro hfree
      rw [← hsize] at hfree
      obtain ⟨r, s', hret, hpost⟩ := (writeData_spec (E := fun _ => False) hdisk hload hdev' hsrc
        fun _ hfew => absurd hfree (not_le.mpr hfew)).exists_ok
      rw [if_pos hok] at hpost
      obtain ⟨rfl, hst⟩ := hpost
      exact ⟨s', writei_exec hdev' hret, hst.bytes, hst.bytes_of_ne⟩
    · -- the conditions are tested before a block is allocated
      obtain ⟨r, s', hret, hpost⟩ := (writeData_spec (E := fun _ => False) hdisk hload hdev' hsrc
        fun hcan' _ => hok hcan').exists_ok
      rw [if_neg hok] at hpost
      obtain ⟨rfl, rfl⟩ := hpost
      exact writei_exec hdev' hret

/-- Two more bytes are written at the end of the file of 600 bytes. They are refused behind its
end. -/
theorem inodes_refine_lists_written : ∃ m, Reached (fun _ _ => True) imageSys m ∧
    (∃ s', (writei 0 1 [1, 2] 600).exec 0 m.shared = .ok (some 2, s') ∧
      s'.view.bytes 2 = (m.shared.view.bytes 2).take 600 ++ [1, 2] ++
        (m.shared.view.bytes 2).drop 602) ∧
    (writei 0 1 [1, 2] 601).exec 0 m.shared = .ok (none, m.shared) := by
  obtain ⟨m, hreach, -, htype, hpos, hvalid, hnum, hsize, hfree⟩ := exists_written
  have hlen : (m.shared.view.bytes 2).length = 600 := by
    rw [View.length_bytes, hsize]
    decide
  obtain ⟨-, hwrite⟩ := inodes_refine_lists hreach 0 hpos hvalid (by rw [hnum, htype]; decide)
  rw [hnum, hlen] at hwrite
  have haccept := hwrite 600 [1, 2] (by decide)
  rw [if_pos (by decide)] at haccept
  obtain ⟨s', hret, hbytes, -⟩ := haccept (le_trans (by decide) (Nat.add_le_add_right hfree _))
  have hrefuse := hwrite 601 [1, 2] (by decide)
  rw [if_neg (by decide)] at hrefuse
  exact ⟨m, hreach, ⟨s', hret, hbytes⟩, hrefuse⟩

end Dave.Fs
