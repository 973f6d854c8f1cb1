import Dave.Fs.View
import Mathlib.Order.Interval.Finset.Nat

/-!
# Block ownership

The block numbers in the places of the inodes and the bits of the free map form a ledger: every
number is that of a data block whose bit is set, no number occurs twice, and every data block whose
bit is set occurs. A file of `nb` blocks has numbers in exactly the places of its first `nb` blocks,
and an indirect block exactly if it needs one.

This file states that as `Owned` and `Mapped`, and shows what the allocation of a block, a change
of the contents of a block and the release of a block do to it.
-/

namespace Dave.Fs

open Nat Option Function

/-! ### Places -/

theorem blockOf_zero : blockOf 0 = none := rfl

theorem blockOf_of_ne {a : Word} (h : a ≠ 0) : blockOf a = some a.toNat := if_neg h

theorem blockOf_eq_none_iff {a : Word} : blockOf a = none ↔ a = 0 := by
  by_cases h : a = 0
  · simp only [h, blockOf_zero]
  · simp only [blockOf_of_ne h, reduceCtorEq, h]

theorem blockOf_ofNat {b : ℕ} (h0 : 0 < b) (h : b < 2 ^ 32) :
    blockOf (BitVec.ofNat 32 b) = some b := by
  have hne : BitVec.ofNat 32 b ≠ 0 := by
    intro heq
    have := congrArg BitVec.toNat heq
    simp only [BitVec.toNat_ofNat, mod_eq_of_lt h, BitVec.ofNat_eq_ofNat] at this
    omega
  rw [blockOf_of_ne hne, BitVec.toNat_ofNat, mod_eq_of_lt h]

namespace Dinode

variable {d : Dinode} {data data' : ℕ → Block}

theorem place_of_free (h : d.type = 0) (k : ℕ) : d.place data k = none := if_pos h

theorem place_addr (data : ℕ → Block) (h : d.type ≠ 0) (k : Fin (nDirect + 1)) :
    d.place data k = blockOf (d.addrs k) := by
  rw [place, if_neg h, dif_pos k.isLt]

theorem place_word (data : ℕ → Block) (h : d.type ≠ 0) {j : ℕ} (hj : j < nIndirect) :
    d.place data (nDirect + 1 + j) =
      (d.place data nDirect).bind fun b => blockOf ((data b).word j) := by
  have hlast := place_addr data h (Fin.last nDirect)
  rw [Fin.val_last] at hlast
  rw [hlast, place, if_neg h, dif_neg (by omega), if_pos (Nat.add_lt_add_left hj _),
    Nat.add_sub_cancel_left]

theorem place_of_ge {k : ℕ} (hk : nPlaces ≤ k) : d.place data k = none := by
  rw [place]
  split_ifs with h1 h2 h3
  · rfl
  · exact absurd h2 (by simp only [nPlaces, nIndirect, bSize] at hk; omega)
  · exact absurd h3 (by omega)
  · rfl

theorem place_congr (h : ∀ b, d.place data nDirect = some b → data' b = data b) (k : ℕ) :
    d.place data' k = d.place data k := by
  by_cases hfree : d.type = 0
  · rw [place_of_free hfree, place_of_free hfree]
  by_cases hk : k < nDirect + 1
  · rw [place_addr data' hfree ⟨k, hk⟩, place_addr data hfree ⟨k, hk⟩]
  by_cases hk' : k < nPlaces
  · obtain ⟨j, rfl⟩ := Nat.exists_eq_add_of_le (Nat.not_lt.mp hk)
    have hlast : d.place data' nDirect = d.place data nDirect := by
      have h1 := place_addr data hfree (Fin.last nDirect)
      have h2 := place_addr data' hfree (Fin.last nDirect)
      rw [Fin.val_last] at h1 h2
      rw [h1, h2]
    have hj : j < nIndirect := Nat.lt_of_add_lt_add_left hk'
    rw [place_word _ hfree hj, place_word _ hfree hj, hlast]
    cases hb : d.place data nDirect with
    | none => rfl
    | some b => simp only [bind_some, h b hb]
  · rw [place_of_ge (not_lt.mp hk'), place_of_ge (not_lt.mp hk')]

theorem place_eq_of {d' : Dinode} (ht : d'.type = d.type) (ha : d'.addrs = d.addrs) (k : ℕ) :
    d'.place data k = d.place data k := by
  simp only [place, ht, ha]

theorem place_setAddr (h : d.type ≠ 0) (k : Fin nDirect) (a : Word) :
    ({ d with addrs := update d.addrs k.castSucc a } : Dinode).place data =
      update (d.place data) k (blockOf a) := by
  have hlast : update d.addrs k.castSucc a (Fin.last nDirect) =
      d.addrs (Fin.last nDirect) := update_of_ne (Fin.castSucc_lt_last k).ne' ..
  funext l
  by_cases hlk : l = k
  · subst hlk
    rw [update_self]
    have hplace : ({ d with addrs := update d.addrs k.castSucc a } : Dinode).place data k =
        blockOf (update d.addrs k.castSucc a k.castSucc) :=
      place_addr (d := { d with addrs := update d.addrs k.castSucc a }) data h k.castSucc
    rwa [update_self] at hplace
  · rw [update_of_ne hlk]
    simp only [place, h, ↓reduceIte, hlast]
    split_ifs with hl
    · have hne : (⟨l, hl⟩ : Fin (nDirect + 1)) ≠ k.castSucc := fun heq =>
        hlk (congrArg Fin.val heq)
      rw [update_of_ne hne]
    · rfl
    · rfl

theorem place_setLast (h : d.type ≠ 0) (hnone : d.place data nDirect = none) (a : Word)
    (hzero : ∀ b, blockOf a = some b → data b = 0) :
    ({ d with addrs := update d.addrs (Fin.last nDirect) a } : Dinode).place data =
      update (d.place data) nDirect (blockOf a) := by
  have hlast : d.addrs (Fin.last nDirect) = 0 := by
    have := place_addr data h (Fin.last nDirect)
    rw [Fin.val_last, hnone] at this
    exact blockOf_eq_none_iff.mp this.symm
  funext l
  by_cases hl : l < nDirect + 1
  · have hplace : ({ d with addrs := update d.addrs (Fin.last nDirect) a } :
        Dinode).place data l = blockOf (update d.addrs (Fin.last nDirect) a ⟨l, hl⟩) :=
      place_addr (d := { d with addrs := update d.addrs (Fin.last nDirect) a }) data h
        ⟨l, hl⟩
    by_cases hln : l = nDirect
    · subst hln
      rw [update_self]
      have heq : (⟨nDirect, hl⟩ : Fin (nDirect + 1)) = Fin.last nDirect := rfl
      rwa [heq, update_self] at hplace
    · have hne : (⟨l, hl⟩ : Fin (nDirect + 1)) ≠ Fin.last nDirect := fun heq =>
        hln (congrArg Fin.val heq)
      rw [update_of_ne hln]
      rw [update_of_ne hne] at hplace
      rw [hplace, place_addr data h ⟨l, hl⟩]
  · have hln : l ≠ nDirect := by omega
    rw [update_of_ne hln]
    simp only [place, h, ↓reduceIte, hl, ↓reduceDIte, update_self, hlast, blockOf_zero,
      bind_none, ite_self, ite_eq_right_iff]
    intro _
    cases hb : blockOf a with
    | none => rfl
    | some b => simp only [bind_some, hzero b hb, Block.word_zero, blockOf_zero]

end Dinode

/-! ### The places of all inodes -/

namespace View

variable {v : View}

theorem place_setData {b : ℕ} (h : ∀ i, v.place (i, nDirect) ≠ some b) (x : Block) :
    (v.setData b x).place = v.place := by
  funext p
  refine Dinode.place_congr (fun c hc => ?_) p.2
  have hne : c ≠ b := by
    rintro rfl
    exact h p.1 hc
  exact update_of_ne hne ..

theorem place_setDino_of_ne {i j : ℕ} (h : j ≠ i) (d : Dinode) (k : ℕ) :
    (v.setDino i d).place (j, k) = v.place (j, k) := by
  simp only [place, setDino, update_of_ne h]

theorem place_setDino_self (i : ℕ) (d : Dinode) (k : ℕ) :
    (v.setDino i d).place (i, k) = d.place v.data k := by
  simp only [place, setDino, update_self]

theorem place_setDino_update {i k : ℕ} {d : Dinode} {o : Option ℕ}
    (h : d.place v.data = update ((v.dino i).place v.data) k o) :
    (v.setDino i d).place = update v.place (i, k) o := by
  funext ⟨j, l⟩
  by_cases hji : j = i
  · subst hji
    rw [place_setDino_self, h]
    by_cases hlk : l = k
    · subst hlk
      rw [update_self, update_self]
    · rw [update_of_ne hlk, update_of_ne (by simp [hlk])]
      rfl
  · rw [place_setDino_of_ne hji, update_of_ne (by simp [hji])]

theorem place_setDino_eq {i : ℕ} {d : Dinode} (h : ∀ k, d.place v.data k = v.place (i, k)) :
    (v.setDino i d).place = v.place := by
  funext ⟨j, l⟩
  by_cases hji : j = i
  · subst hji
    rw [place_setDino_self, h]
  · rw [place_setDino_of_ne hji]

theorem place_setWord {i b j : ℕ} (hb : v.place (i, nDirect) = some b)
    (huniq : ∀ l, v.place (l, nDirect) = some b → l = i) (hj : j < nIndirect) (a : Word) :
    (v.setData b ((v.data b).setWord j a)).place =
      update v.place (i, nDirect + 1 + j) (blockOf a) := by
  funext ⟨l, k⟩
  by_cases hli : l = i
  · subst hli
    have hfree : (v.dino l).type ≠ 0 := by
      intro hfree
      rw [place, Dinode.place_of_free hfree] at hb
      cases hb
    have hlast : (v.dino l).place (v.setData b ((v.data b).setWord j a)).data nDirect = some b := by
      have h1 := Dinode.place_addr (v.setData b ((v.data b).setWord j a)).data hfree
        (Fin.last nDirect)
      have h2 := Dinode.place_addr v.data hfree (Fin.last nDirect)
      rw [Fin.val_last] at h1 h2
      rw [h1, ← h2]
      exact hb
    by_cases hk : k < nDirect + 1
    · have hne : k ≠ nDirect + 1 + j := by omega
      rw [update_of_ne (by simp [hne])]
      change (v.dino l).place _ k = (v.dino l).place _ k
      rw [Dinode.place_addr _ hfree ⟨k, hk⟩, Dinode.place_addr _ hfree ⟨k, hk⟩]
    by_cases hk' : k < nPlaces
    · obtain ⟨m, rfl⟩ := Nat.exists_eq_add_of_le (Nat.not_lt.mp hk)
      have hm : m < nIndirect := Nat.lt_of_add_lt_add_left hk'
      have hlhs : (v.setData b ((v.data b).setWord j a)).place (l, nDirect + 1 + m) =
          blockOf (((v.data b).setWord j a).word m) := by
        change (v.dino l).place _ _ = _
        rw [Dinode.place_word _ hfree hm, hlast, bind_some]
        simp only [setData, update_self]
      rw [hlhs]
      by_cases hmj : m = j
      · subst hmj
        rw [update_self, Block.word_setWord_self _ _ hm]
      · rw [update_of_ne (by simp [hmj]), Block.word_setWord_of_ne _ _ (Ne.symm hmj)]
        change _ = (v.dino l).place _ _
        rw [Dinode.place_word _ hfree hm]
        change _ = Option.bind (v.place (l, nDirect)) _
        rw [hb, Option.bind_some]
    · have hne : k ≠ nDirect + 1 + j := by
        rintro rfl
        exact hk' (Nat.add_lt_add_left hj _)
      rw [update_of_ne (by simp [hne])]
      change (v.dino l).place _ k = (v.dino l).place _ k
      rw [Dinode.place_of_ge (not_lt.mp hk'), Dinode.place_of_ge (not_lt.mp hk')]
  · rw [update_of_ne (by simp [hli])]
    refine Dinode.place_congr (fun c hc => ?_) k
    have hne : c ≠ b := by
      rintro rfl
      exact hli (huniq l hc)
    exact update_of_ne hne ..

theorem blk_congr {v' : View} {i n : ℕ} (hp : v'.place (i, fileIdx n) = v.place (i, fileIdx n))
    (hd : ∀ b, v.place (i, fileIdx n) = some b → v'.data b = v.data b) :
    v'.blk i n = v.blk i n := by
  rw [blk, blk, hp]
  cases hb : v.place (i, fileIdx n) with
  | none => rfl
  | some b => rw [map_some, map_some, hd b hb]

end View

/-! ### The blocks of a file -/

theorem fileIdx_of_lt {n : ℕ} (h : n < nDirect) : fileIdx n = n := if_pos h

theorem fileIdx_add (j : ℕ) : fileIdx (nDirect + j) = nDirect + 1 + j := by
  rw [fileIdx, if_neg (by omega)]
  omega

theorem fileIdx_ne (n : ℕ) : fileIdx n ≠ nDirect := by
  rw [fileIdx]
  split_ifs <;> omega

theorem fileIdx_injective {m n : ℕ} (h : fileIdx m = fileIdx n) : m = n := by
  rw [fileIdx, fileIdx] at h
  split_ifs at h <;> omega

/-- The number of blocks that a file of `nb` blocks takes, its indirect block included. -/
def blocksOf (nb : ℕ) : ℕ := if nDirect < nb then nb + 1 else nb

theorem blocksOf_mono {m n : ℕ} (h : m ≤ n) : blocksOf m ≤ blocksOf n := by
  rw [blocksOf, blocksOf]
  split_ifs <;> omega

/-- The places of an inode hold the numbers of exactly its first `nb` blocks, and of an indirect
block if it needs one. -/
structure Mapped (pl : ℕ → Option ℕ) (nb : ℕ) : Prop where
  le : nb ≤ maxFile
  file : ∀ n < maxFile, (pl (fileIdx n) ≠ none ↔ n < nb)
  indirect : pl nDirect ≠ none ↔ nDirect < nb

namespace Mapped

variable {pl : ℕ → Option ℕ} {nb : ℕ}

theorem exists_block (h : Mapped pl nb) {n : ℕ} (hn : n < nb) : ∃ b, pl (fileIdx n) = some b :=
  ne_none_iff_exists'.mp ((h.file n (hn.trans_le h.le)).mpr hn)

theorem eq_none (h : Mapped pl nb) {n : ℕ} (hn : n < maxFile) (hge : nb ≤ n) :
    pl (fileIdx n) = none := by
  by_contra hne
  exact absurd ((h.file n hn).mp hne) (not_lt.mpr hge)

theorem empty : Mapped (fun _ => none) 0 where
  le := zero_le _
  file _ _ := iff_of_false (not_not.mpr rfl) (not_lt_zero _)
  indirect := iff_of_false (not_not.mpr rfl) (not_lt_zero _)

theorem snoc (h : Mapped pl nb) (hlt : nb < maxFile) (hne : nb ≠ nDirect) (b : ℕ) :
    Mapped (update pl (fileIdx nb) (some b)) (nb + 1) where
  le := hlt
  file n hn := by
    by_cases heq : n = nb
    · subst heq
      simp
    · have hidx : fileIdx n ≠ fileIdx nb := fun hidx => heq (fileIdx_injective hidx)
      rw [update_of_ne hidx, h.file n hn]
      omega
  indirect := by
    rw [update_of_ne (fileIdx_ne nb).symm, h.indirect]
    omega

theorem snocIndirect (h : Mapped pl nDirect) (c b : ℕ) :
    Mapped (update (update pl nDirect (some c)) (fileIdx nDirect) (some b))
      (nDirect + 1) where
  le := by decide
  file n hn := by
    by_cases heq : n = nDirect
    · subst heq
      simp
    · have hidx : fileIdx n ≠ fileIdx nDirect := fun hidx => heq (fileIdx_injective hidx)
      rw [update_of_ne hidx, update_of_ne (fileIdx_ne n), h.file n hn]
      omega
  indirect := by
    rw [update_of_ne (fileIdx_ne nDirect).symm, update_self]
    simp

end Mapped

/-! ### Ownership -/

abbrev Superblock.pool (sb : Superblock) : Finset ℕ := Finset.Ico sb.datastart sb.size

theorem Superblock.mem_pool {sb : Superblock} {b : ℕ} : b ∈ sb.pool ↔ sb.IsData b := Finset.mem_Ico

/-- The block numbers in the inodes and the free map are in step, and no block outside the data
area is free. -/
structure Owned (sb : Superblock) (v : View) : Prop where
  ledger : Ledger sb.pool v.place v.used
  low : ∀ b < sb.datastart, v.used b = true

def View.free (sb : Superblock) (v : View) : ℕ := (Ledger.unused sb.pool v.used).card

namespace Owned

variable {sb : Superblock} {v : View}

variable {p : ℕ × ℕ} {b : ℕ}

variable {v' : View}

variable (h : Owned sb v)

include h

theorem isData (hp : v.place p = some b) : sb.IsData b :=
  Superblock.mem_pool.mp (h.ledger.mem hp)

theorem place_setData_unused (hu : v.used b = false) (x : Block) :
    (v.setData b x).place = v.place :=
  View.place_setData (fun _ => h.ledger.ne_of_unused hu) x

theorem place_setData_file {i n : ℕ} (hb : v.place (i, fileIdx n) = some b) (x : Block) :
    (v.setData b x).place = v.place := by
  refine View.place_setData (fun j hj => ?_) x
  have heq := h.ledger.injective hj hb
  exact fileIdx_ne n (congrArg Prod.snd heq).symm

theorem alloc (hb : b ∈ sb.pool) (hu : v.used b = false) (hp : v.place p = none)
    (hplace : v'.place = update v.place p (some b)) (hused : v'.used = update v.used b true) :
    Owned sb v' where
  ledger := by
    rw [hplace, hused]
    exact h.ledger.alloc hb hu hp
  low c hc := by
    rw [hused]
    have hne : c ≠ b := by
      rintro rfl
      exact absurd (Superblock.mem_pool.mp hb).1 (not_le.mpr hc)
    rw [update_of_ne hne, h.low c hc]

theorem congr (hplace : v'.place = v.place) (hused : v'.used = v.used) :
    Owned sb v' where
  ledger := by
    rw [hplace, hused]
    exact h.ledger
  low c hc := by
    rw [hused]
    exact h.low c hc

theorem place_fresh (hu : v.used b = false) :
    ((v.setUsed b true).setData b 0).place = v.place := h.place_setData_unused hu 0

/-- The contents of the files after a block `b` has been put in the place of the `n`-th block of
inode `i`: that block is new, and the others are as before. -/
theorem blk_alloc {i n : ℕ} (hu : v.used b = false) (hplace : v'.place (i, fileIdx n) = some b)
    (hzero : v'.data b = 0)
    (hother : ∀ j m, (j, m) ≠ (i, n) → v'.place (j, fileIdx m) = v.place (j, fileIdx m))
    (hdata : ∀ j m c, v.place (j, fileIdx m) = some c → c ≠ b → v'.data c = v.data c) (j m : ℕ) :
    v'.blk j m = if j = i ∧ m = n then some 0 else v.blk j m := by
  split_ifs with heq
  · obtain ⟨rfl, rfl⟩ := heq
    rw [View.blk, hplace, map_some, hzero]
  · refine View.blk_congr (hother j m fun hp => heq ?_) fun c hc => hdata j m c hc ?_
    · exact ⟨congrArg Prod.fst hp, congrArg Prod.snd hp⟩
    · rintro rfl
      exact h.ledger.ne_of_unused hu hc

theorem allocAddr {i : ℕ} (ht : (v.dino i).type ≠ 0) (hb : b ∈ sb.pool)
    (hu : v.used b = false) (hb0 : 0 < b) (hlt : b < 2 ^ 32) (k : Fin (nDirect + 1))
    (hnone : v.place (i, k) = none)
    (hv' : v' = ((v.setUsed b true).setData b 0).setDino i
      { v.dino i with addrs := update (v.dino i).addrs k (BitVec.ofNat 32 b) }) :
    v'.place = update v.place (i, (k : ℕ)) (some b) ∧ Owned sb v' := by
  have hfresh := h.place_fresh hu
  have hdino : ({ v.dino i with
      addrs := update (v.dino i).addrs k (BitVec.ofNat 32 b) } : Dinode).place
        ((v.setUsed b true).setData b 0).data =
      update ((((v.setUsed b true).setData b 0).dino i).place
        ((v.setUsed b true).setData b 0).data) k (some b) := by
    rw [← blockOf_ofNat hb0 hlt]
    refine Fin.lastCases ?_ (fun k hnone => ?_) k hnone
    · intro hnone
      refine Dinode.place_setLast ht ?_ _ fun c hc => ?_
      · exact (congrFun hfresh (i, nDirect)).trans hnone
      · rw [blockOf_ofNat hb0 hlt, some.injEq] at hc
        rw [← hc, View.setData_data, update_self]
    · exact Dinode.place_setAddr ht k _
  have hplace : v'.place = update v.place (i, (k : ℕ)) (some b) := by
    rw [hv', View.place_setDino_update hdino, hfresh]
  refine ⟨hplace, h.alloc hb hu hnone hplace ?_⟩
  rw [hv']
  rfl

theorem allocWord {i c j : ℕ} (hb : b ∈ sb.pool) (hu : v.used b = false)
    (hb0 : 0 < b) (hlt : b < 2 ^ 32) (hc : v.place (i, nDirect) = some c) (hj : j < nIndirect)
    (hnone : v.place (i, nDirect + 1 + j) = none)
    (hv' : v' = ((v.setUsed b true).setData b 0).setData c
      ((v.data c).setWord j (BitVec.ofNat 32 b))) :
    v'.place = update v.place (i, nDirect + 1 + j) (some b) ∧ Owned sb v' := by
  have hfresh := h.place_fresh hu
  have hcb : c ≠ b := by
    rintro rfl
    exact h.ledger.ne_of_unused hu hc
  have hdata : ((v.setUsed b true).setData b 0).data c = v.data c := update_of_ne hcb ..
  have hplace : v'.place = update v.place (i, nDirect + 1 + j) (some b) := by
    rw [hv', ← hdata, View.place_setWord (by rw [hfresh]; exact hc) (fun l hl => ?_) hj, hfresh,
      blockOf_ofNat hb0 hlt]
    rw [hfresh] at hl
    exact congrArg Prod.fst (h.ledger.injective hl hc)
  refine ⟨hplace, h.alloc hb hu hnone hplace ?_⟩
  rw [hv']
  rfl

theorem blk_setData {i n : ℕ} (hb : v.place (i, fileIdx n) = some b) (x : Block) (j m : ℕ) :
    (v.setData b x).blk j m = if j = i ∧ m = n then some x else v.blk j m := by
  have hplace := h.place_setData_file hb x
  split_ifs with heq
  · obtain ⟨rfl, rfl⟩ := heq
    rw [View.blk, hplace, hb, map_some]
    simp only [View.setData, update_self]
  · refine View.blk_congr (by rw [hplace]) fun c hc => ?_
    have hne : c ≠ b := by
      rintro rfl
      have hidx := h.ledger.injective hc hb
      exact heq ⟨congrArg Prod.fst hidx, fileIdx_injective (congrArg Prod.snd hidx)⟩
    exact update_of_ne hne ..

end Owned

end Dave.Fs
