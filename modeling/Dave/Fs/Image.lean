import Dave.Fs.Rest

/-!
# A small file system

A disk with one directory, the root, as `mkfs` makes it, and two processes whose current directory
it is. The results about calls are tried out on it.
-/

namespace Dave.Fs

/-- The super block of the small disk: 30 blocks, of which blocks 5 to 29 are data blocks. -/
def imageSb : Superblock where
  size := 30
  nblocks := 25
  ninodes := 16
  inodestart := 2
  bmapstart := 4

/-- The inode of the root directory: two entries, in block 5. -/
def rootInode : Dinode :=
  { Dinode.zero with
    type := tDir
    nlink := 1
    size := 32
    addrs := fun k => if k = 0 then 5 else 0 }

def rootEntries : List Byte :=
  Dirent.toBytes ⟨1, key dotName⟩ ++ Dirent.toBytes ⟨1, key dotdotName⟩

/-- The blocks of the small disk. -/
def imageDisk (b : ℕ) : Block :=
  if b = 2 then setDinode 0 1 rootInode
  else if b = 4 then 0x3f
  else if b = 5 then Block.setBytes 0 0 rootEntries
  else 0

/-- Two processes in the root directory of the small disk. -/
def image : State (Fin 2) where
  sb := imageSb
  disk := imageDisk
  icache ip :=
    if ip = 0 then ⟨rootDev, rootIno, 2, none, true, rootInode⟩ else ⟨0, 0, 0, none, false, .zero⟩
  ftable _ := ⟨.none, 0, false, false, 0, 0⟩
  proc _ := ⟨.live, some 0, fun _ => none⟩
  trace := []

theorem image_dino_one : image.view.dino 1 = rootInode :=
  getDinode_setDinode_self 0 rootInode (by decide)

theorem image_type (i : ℕ) (hi : i ≠ 1) : (image.view.dino i).type = 0 := by
  change (if i < 16 then image.dinode i else Dinode.zero).type = 0
  split_ifs with hlt
  · have hall : ∀ j : Fin 16, (j : ℕ) ≠ 1 → (image.dinode j).type = 0 := by decide +kernel
    exact hall ⟨i, hlt⟩ hi
  · rfl

theorem image_dir {i : ℕ} (hi : (image.view.dino i).type = tDir) : i = 1 := by
  by_contra h
  rw [image_type i h] at hi
  exact absurd hi (by decide)

theorem image_place (p : ℕ × ℕ) : image.view.place p = if p = (1, 0) then some 5 else none := by
  obtain ⟨i, k⟩ := p
  by_cases hi : i = 1
  · subst hi
    rw [View.place, image_dino_one, Dinode.place, if_neg (by decide)]
    by_cases hk : k = 0
    · subst hk
      rfl
    · have hne : (1, k) ≠ (1, 0) := fun h => hk (Prod.mk.inj h).2
      have hblock (h : k < nDirect + 1) : blockOf (rootInode.addrs ⟨k, h⟩) = none := by
        have hk' : (⟨k, h⟩ : Fin (nDirect + 1)) ≠ 0 := by
          rw [Ne, Fin.ext_iff]
          exact hk
        simp [rootInode, blockOf, hk']
      dsimp only
      split_ifs with h h'
      · exact hblock h
      · rfl
      · rfl
  · rw [View.place, Dinode.place, if_pos (image_type i hi), if_neg (by simp [hi])]

theorem image_used {b : ℕ} (hb : b < 30) : image.view.used b = decide (b ≤ 5) := by
  have hall : ∀ c : Fin 30, image.bit c = decide ((c : ℕ) ≤ 5) := by decide +kernel
  exact (view_used (s := image) hb).trans (hall ⟨b, hb⟩)

theorem diskOk_image : DiskOk image where
  ordered := ⟨by decide, by decide, by decide, by decide, by decide, by decide⟩
  owned :=
    { ledger :=
        { mem := fun {p b} h => by
            rw [image_place] at h
            split_ifs at h
            obtain rfl := Option.some.inj h
            decide
          injective := fun {p q b} hp hq => by
            rw [image_place] at hp hq
            split_ifs at hp hq with h1 h2
            exact h1.trans h2.symm
          used_iff := fun {b} hb => by
            have hmem : 5 ≤ b ∧ b < 30 := Finset.mem_Ico.mp hb
            rw [image_used hmem.2, decide_eq_true_iff]
            refine ⟨fun hle => ⟨(1, 0), ?_⟩, ?_⟩
            · rw [image_place, if_pos rfl, Nat.le_antisymm hle hmem.1]
            · rintro ⟨p, hp⟩
              rw [image_place] at hp
              split_ifs at hp
              exact (Option.some.inj hp).ge }
      low := fun b hb => by
        have hb' : b < 5 := hb
        rw [image_used (by omega), decide_eq_true_iff]
        omega }
  mapped i hi _ := by
    obtain rfl : i = 1 := by_contra fun h => hi (image_type i h)
    have hsize : nblk (image.view.dino 1).size.toNat = 1 := by
      rw [image_dino_one]
      decide
    rw [hsize]
    refine ⟨by decide, fun n _ => ?_, ?_⟩
    · rw [image_place, fileIdx]
      have hiff : (1, if n < nDirect then n else n + 1) = (1, 0) ↔ n < 1 := by
        by_cases hn : n < nDirect
        · simp [if_pos hn]
        · simp only [nDirect] at hn
          simp [if_neg hn]
          omega
      rw [← hiff]
      by_cases h : (1, if n < nDirect then n else n + 1) = (1, 0)
      · simp [h]
      · simp [h]
    · rw [image_place]
      decide

theorem image_icache {ip : Slot} (h : 0 < (image.icache ip).ref) : ip = 0 := by
  by_contra hne
  simp [image, hne] at h

theorem resting_image : Resting image where
  store := by
    refine ⟨diskOk_image, fun ip h => ?_, fun ip h => ?_, fun ip jp h h' _ => ?_, fun ip h _ => ?_⟩
    · rw [image_icache h]
      decide
    · rw [image_icache h]
      rfl
    · rw [image_icache h, image_icache h']
    · obtain rfl := image_icache h
      exact ⟨by decide, image_dino_one.symm, by decide⟩
  dirs i hi := by
    obtain rfl := image_dir hi
    refine ⟨by rw [image_dino_one]; decide, ?_⟩
    have hall : ∀ e ∈ image.view.dirents 1, e.inum.toNat < 16 := by decide +kernel
    exact hall
  table := by
    refine ⟨fun ip => ?_, fun f => ?_, fun _ _ => rfl, fun p ip h => ?_, fun f h => ?_⟩
    · have hfiles : fileRefs image.ftable ip = 0 := Finset.sum_eq_zero fun f _ => by simp [image]
      rw [hfiles]
      by_cases h : ip = 0
      · subst h
        decide
      · have hcwd : cwdRefs image.proc ip = 0 := Finset.sum_eq_zero fun p _ => by
          simp [image, Ne.symm h]
        rw [hcwd]
        simp [image, h]
    · exact (Finset.sum_eq_zero fun p _ => Finset.sum_eq_zero fun fd _ => by simp [image]).symm
    · obtain rfl : 0 = ip := Option.some.inj h
      exact congrArg Dinode.type image_dino_one
    · simp [image] at h
  unlocked ip := by
    by_cases h : ip = 0 <;> simp [image, h]
  dead p h := absurd rfl h

/-- The two processes of the small file system, before their first call. -/
def imageSys : KernelSys (Fin 2) := ⟨image, fun _ => none, none, fun _ => []⟩

theorem reached_of_play {ok : KernelSys (Fin 2) → Fin 2 → Bool} {es : List (Event (Fin 2))}
    {m : KernelSys (Fin 2)} (h : play ok imageSys es = some m) :
    Reached (fun m p => ok m p = true) imageSys m :=
  ⟨⟨rfl, fun _ => rfl⟩, resting_image, play_reachable (fun _ c _ _ hlive => ⟨hlive, c, rfl⟩) h⟩

end Dave.Fs
