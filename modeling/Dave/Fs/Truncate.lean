import Dave.Fs.Consistent
import Mathlib.Algebra.Order.Group.Nat

/-!
# Freeing an inode

`itrunc` gives back all blocks of an inode, and `iput` marks the inode itself as free. In the middle
of the loops of `itrunc` the words of the indirect block still hold the numbers of blocks that have
been given back, so the ledger is kept for a list of places that gets shorter, and compared with the
inode at the end.
-/

namespace Dave.Fs

open Finset Function

variable {P : Type} {E : Panic → Prop} {s s' s'' : State P} {ip : Slot}

/-- `bfree` clears one bit of the map. -/
theorem bfree_spec (hsb : s.sb.Ordered) {b : ℕ} (hb : b < s.sb.size) (hu : s.view.used b = true) :
    Wp E (bfree b) (fun _ s' => SameMem s s' ∧ s'.view = s.view.setUsed b false ∧
      Logs s.sb.bitmap s s') s := by
  rw [view_used hb] at hu
  simp only [bfree, wp_bind, wp_get, hu, ↓reduceIte, logWrite, wp_modify]
  have hmem : s.sb.bblock b ∈ s.sb.bitmap := ⟨b, hb, rfl⟩
  exact ⟨⟨rfl, rfl, rfl, rfl⟩, view_setBit hsb hb false, .logWrite hmem s _⟩

/-- The places `own`, less those of inode `i` that are `gone`. -/
def dropPlaces (own : ℕ × ℕ → Option ℕ) (i : ℕ) (gone : Finset ℕ) (p : ℕ × ℕ) : Option ℕ :=
  if p.1 = i ∧ p.2 ∈ gone then none else own p

theorem dropPlaces_empty (own : ℕ × ℕ → Option ℕ) (i : ℕ) : dropPlaces own i ∅ = own := by
  funext p
  simp [dropPlaces]

theorem dropPlaces_of_notMem (own : ℕ × ℕ → Option ℕ) (i : ℕ) {gone : Finset ℕ} {k : ℕ}
    (hk : k ∉ gone) : dropPlaces own i gone (i, k) = own (i, k) := by
  simp [dropPlaces, hk]

theorem dropPlaces_insert (own : ℕ × ℕ → Option ℕ) (i : ℕ) (gone : Finset ℕ) (k : ℕ) :
    dropPlaces own i (insert k gone) = update (dropPlaces own i gone) (i, k) none := by
  funext p
  by_cases hp : p = (i, k)
  · subst hp
    simp [dropPlaces]
  · rw [update_of_ne hp, dropPlaces, dropPlaces]
    refine if_congr ?_ rfl rfl
    rw [mem_insert]
    constructor
    · rintro ⟨h1, h2 | h2⟩
      · exact absurd (Prod.ext h1 h2) hp
      · exact ⟨h1, h2⟩
    · rintro ⟨h1, h2⟩
      exact ⟨h1, .inr h2⟩

/-- The free map while the places of an inode are given back one after the other. -/
structure Releasing (sb : Superblock) (own : ℕ × ℕ → Option ℕ) (i : ℕ) (gone : Finset ℕ)
    (used : ℕ → Bool) : Prop where
  ledger : Ledger sb.pool (dropPlaces own i gone) used
  low : ∀ b < sb.datastart, used b = true

namespace Releasing

variable {sb : Superblock} {own : ℕ × ℕ → Option ℕ} {i k : ℕ} {gone : Finset ℕ} {used : ℕ → Bool}

variable (h : Releasing sb own i gone used)

include h

theorem skip (hk : k ∉ gone) (hnone : own (i, k) = none) :
    Releasing sb own i (insert k gone) used where
  ledger := by
    have hself : dropPlaces own i gone (i, k) = none := (dropPlaces_of_notMem own i hk).trans hnone
    rw [dropPlaces_insert, ← hself, update_eq_self]
    exact h.ledger
  low := h.low

theorem congr {gone' : Finset ℕ} (hgone : ∀ k, own (i, k) ≠ none → (k ∈ gone ↔ k ∈ gone')) :
    Releasing sb own i gone' used where
  ledger := by
    have heq : dropPlaces own i gone' = dropPlaces own i gone := by
      funext p
      obtain ⟨j, k⟩ := p
      by_cases hj : j = i
      · subst hj
        by_cases hk : own (j, k) = none
        · simp [dropPlaces, hk]
        · simp [dropPlaces, hgone k hk]
      · simp [dropPlaces, hj]
    rw [heq]
    exact h.ledger
  low := h.low

theorem used_of_own (hk : k ∉ gone) {b : ℕ} (hb : own (i, k) = some b) :
    b < sb.size ∧ used b = true := by
  have hself : dropPlaces own i gone (i, k) = some b := (dropPlaces_of_notMem own i hk).trans hb
  exact ⟨(Superblock.mem_pool.mp (h.ledger.mem hself)).2, h.ledger.used_of_own hself⟩

theorem free (hk : k ∉ gone) {b : ℕ} (hb : own (i, k) = some b) :
    Releasing sb own i (insert k gone) (update used b false) where
  ledger := by
    rw [dropPlaces_insert]
    exact h.ledger.free ((dropPlaces_of_notMem own i hk).trans hb)
  low c hc := by
    have hself : dropPlaces own i gone (i, k) = some b := (dropPlaces_of_notMem own i hk).trans hb
    have hne : c ≠ b := by
      rintro rfl
      exact absurd (Superblock.mem_pool.mp (h.ledger.mem hself)).1 (Nat.not_le.mpr hc)
    rw [update_of_ne hne, h.low c hc]

end Releasing

/-! ### Truncation -/

/-- A moment of `itrunc`, which began in state `s`: the places in `gone` have been given back and
the addresses `k` with `zeroed k` have been cleared. -/
structure Truncating (ip : Slot) (s : State P) (gone : Finset ℕ) (addrs : Fin (nDirect + 1) → Word)
    (t : State P) : Prop where
  touch : Touch ip s t
  fields : (t.icache ip).d = { (s.icache ip).d with addrs := addrs }
  dino : t.view.dino = s.view.dino
  data : t.view.data = s.view.data
  releasing : Releasing s.sb (s.focus ip).place (s.icache ip).inum gone t.view.used
  logs : Logs s.sb.bitmap s t

theorem Truncating.start (h : Work s ip) : Truncating ip s ∅ (s.icache ip).d.addrs s where
  touch := .refl ip s
  fields := rfl
  dino := rfl
  data := rfl
  releasing := by
    refine ⟨?_, h.owned.low⟩
    rw [dropPlaces_empty]
    exact h.owned.ledger
  logs := .refl s

variable {t : State P} {addrs : Fin (nDirect + 1) → Word}

theorem Truncating.bfree {gone : Finset ℕ} {k b : ℕ} (h : Truncating ip s gone addrs t)
    (hw : Work s ip) (hk : k ∉ gone) (hb : (s.focus ip).place ((s.icache ip).inum, k) = some b) :
    Wp E (bfree b) (fun _ t' => Truncating ip s (insert k gone) addrs t') t := by
  obtain ⟨hlt, hu⟩ := h.releasing.used_of_own hk hb
  refine (bfree_spec (h.touch.sb ▸ hw.ordered) (h.touch.sb ▸ hlt) hu).mono
    fun _ t' ⟨hsame, hview, hlogs⟩ => ⟨h.touch.trans (.of_sameMem hsame), ?_, ?_, ?_, ?_,
      h.logs.trans (h.touch.sb ▸ hlogs)⟩
  · rw [hsame.icache, h.fields]
  · rw [hview]
    exact h.dino
  · rw [hview]
    exact h.data
  · rw [hview]
    exact h.releasing.free hk hb

theorem Truncating.setAddr {gone : Finset ℕ} (h : Truncating ip s gone addrs t)
    (k : Fin (nDirect + 1)) :
    Wp E (setAddr ip k 0)
      (fun _ t' => Truncating ip s gone (update addrs k 0) t') t := by
  simp only [Fs.setAddr, modifyInode, wp_modify]
  refine ⟨h.touch.trans (.setInode t ip _), ?_, h.dino, h.data, h.releasing,
    h.logs.trans (.of_eq rfl)⟩
  rw [State.setInode_icache, update_self, h.fields]
  rfl

theorem Truncating.skip {gone : Finset ℕ} {k : ℕ} (h : Truncating ip s gone addrs t) (hk : k ∉ gone)
    (hnone : (s.focus ip).place ((s.icache ip).inum, k) = none) :
    Truncating ip s (insert k gone) addrs t :=
  { h with releasing := h.releasing.skip hk hnone }

/-- The addresses after the first `n` direct ones have been cleared. -/
def clearAddrs (addrs : Fin (nDirect + 1) → Word) (n : ℕ) (k : Fin (nDirect + 1)) : Word :=
  if (k : ℕ) < n then 0 else addrs k

theorem clearAddrs_succ (addrs : Fin (nDirect + 1) → Word) (k : Fin nDirect) :
    clearAddrs addrs (k + 1) = update (clearAddrs addrs k) k.castSucc 0 := by
  funext l
  by_cases hl : l = k.castSucc
  · subst hl
    simp [clearAddrs]
  · have hne : (l : ℕ) ≠ k := fun h => hl (Fin.ext h)
    rw [update_of_ne hl, clearAddrs, clearAddrs]
    refine if_congr ?_ rfl rfl
    omega

/-- The loop over the direct blocks. -/
theorem itruncDirect_spec (hw : Work s ip) : Wp E ((List.finRange nDirect).forM fun i => do
      let addr := ((← get).icache ip).d.addrs i.castSucc
      if addr ≠ 0 then
        bfree addr.toNat
        setAddr ip i.castSucc 0)
      (fun _ t => Truncating ip s (range nDirect)
        (clearAddrs (s.icache ip).d.addrs nDirect) t) s := by
  have hlen : (List.finRange nDirect).length = nDirect := List.length_finRange
  refine (wp_forM (fun k t => Truncating ip s (range k)
    (clearAddrs (s.icache ip).d.addrs k) t) (fun k hk t ht => ?_) ?_).mono fun _ t ht => ?_
  · have hk' : k < nDirect := hlen ▸ hk
    have hget : (List.finRange nDirect).get ⟨k, hk⟩ = ⟨k, hk'⟩ := by simp
    have haddr : (t.icache ip).d.addrs (⟨k, hk'⟩ : Fin nDirect).castSucc =
        (s.icache ip).d.addrs (⟨k, hk'⟩ : Fin nDirect).castSucc := by
      rw [ht.fields]
      simp [clearAddrs]
    have hplace := hw.place_addr (⟨k, hk'⟩ : Fin nDirect).castSucc
    simp only [hget, wp_bind, wp_get, haddr]
    have hnot : k ∉ range k := notMem_range_self
    rw [range_add_one, clearAddrs_succ _ ⟨k, hk'⟩]
    by_cases hz : (s.icache ip).d.addrs (⟨k, hk'⟩ : Fin nDirect).castSucc = 0
    · rw [if_neg (not_not.mpr hz), wp_pure]
      rw [hz, blockOf_zero] at hplace
      have hskip := ht.skip hnot hplace
      have hsame : update (clearAddrs (s.icache ip).d.addrs k)
          (⟨k, hk'⟩ : Fin nDirect).castSucc 0 = clearAddrs (s.icache ip).d.addrs k := by
        refine update_eq_self_iff.mpr ?_
        exact (hz.symm.trans (if_neg (Nat.lt_irrefl k)).symm)
      rw [hsame]
      exact hskip
    · rw [if_pos hz, wp_bind]
      rw [blockOf_of_ne hz] at hplace
      exact (ht.bfree hw hnot hplace).mono fun _ t' ht' => ht'.setAddr _
  · exact Truncating.start hw
  · rwa [hlen] at ht

/-- The loop over the entries of the indirect block. -/
theorem itruncIndirect_spec {gone : Finset ℕ} {c : ℕ} (hw : Work s ip)
    (ht : Truncating ip s gone addrs t) (hgone : ∀ k ∈ gone, k < nDirect)
    (hc : (s.focus ip).place ((s.icache ip).inum, nDirect) = some c) :
    Wp E ((List.range nIndirect).forM fun j => do
      if (s.disk c).word j ≠ 0 then
        bfree ((s.disk c).word j).toNat)
      (fun _ t' => Truncating ip s
        (gone ∪ (range nIndirect).map (addLeftEmbedding (nDirect + 1))) addrs t') t := by
  have hlen : (List.range nIndirect).length = nIndirect := List.length_range
  refine (wp_forM (fun j t => Truncating ip s
    (gone ∪ (range j).map (addLeftEmbedding (nDirect + 1))) addrs t)
    (fun j hj t ht => ?_) ?_).mono fun _ t ht => ?_
  · have hj' : j < nIndirect := hlen ▸ hj
    have hplace := hw.place_word hc hj'
    have hnot : nDirect + 1 + j ∉
        gone ∪ (range j).map (addLeftEmbedding (nDirect + 1)) := by
      simp only [mem_union, mem_map, mem_range, addLeftEmbedding_apply]
      rintro (h | ⟨l, hl, heq⟩)
      · have := hgone _ h
        omega
      · omega
    have hins : gone ∪ (range (j + 1)).map (addLeftEmbedding (nDirect + 1)) =
        insert (nDirect + 1 + j)
          (gone ∪ (range j).map (addLeftEmbedding (nDirect + 1))) := by
      rw [range_add_one, map_insert, union_insert, addLeftEmbedding_apply]
    rw [List.get_eq_getElem, List.getElem_range, hins]
    by_cases hz : (s.disk c).word j = 0
    · rw [if_neg (not_not.mpr hz), wp_pure]
      rw [hz, blockOf_zero] at hplace
      exact ht.skip hnot hplace
    · rw [if_pos hz]
      rw [blockOf_of_ne hz] at hplace
      exact ht.bfree hw hnot hplace
  · simpa using ht
  · rwa [hlen] at ht

theorem Truncating.all {gone : Finset ℕ} (h : Truncating ip s gone addrs t)
    (hgone : ∀ k < nPlaces, k ∉ gone → (s.focus ip).place ((s.icache ip).inum, k) = none)
    (haddrs : addrs = 0) : Truncating ip s (range nPlaces) 0 t := by
  subst haddrs
  refine { h with releasing := h.releasing.congr fun k hk => ?_ }
  have hlt : k < nPlaces := Nat.not_le.mp fun hle => hk (Dinode.place_of_ge hle)
  simp only [mem_range, hlt, iff_true]
  exact by_contra fun hnot => hk (hgone k hlt hnot)

theorem clearAddrs_nDirect (h : addrs (Fin.last nDirect) = 0) : clearAddrs addrs nDirect = 0 := by
  funext k
  by_cases hk : (k : ℕ) < nDirect
  · exact if_pos hk
  · have hlast : k = Fin.last nDirect := Fin.ext (Nat.le_antisymm k.is_le (Nat.not_lt.mp hk))
    rw [clearAddrs, if_neg hk, hlast, h]
    rfl

theorem update_clearAddrs (addrs : Fin (nDirect + 1) → Word) :
    update (clearAddrs addrs nDirect) (Fin.last nDirect) 0 = 0 := by
  funext k
  by_cases hk : k = Fin.last nDirect
  · rw [hk, update_self]
    rfl
  · rw [update_of_ne hk]
    exact if_pos (Fin.val_lt_last hk)

theorem Work.place_eq_none (hw : Work s ip) (hz : (s.icache ip).d.addrs (Fin.last nDirect) = 0)
    {k : ℕ} (hk : nDirect ≤ k) : (s.focus ip).place ((s.icache ip).inum, k) = none := by
  have hlast : (s.focus ip).place ((s.icache ip).inum, nDirect) = none := by
    have := hw.place_addr (Fin.last nDirect)
    rwa [hz, blockOf_zero] at this
  by_cases hge : nPlaces ≤ k
  · exact Dinode.place_of_ge hge
  by_cases heq : k = nDirect
  · rw [heq, hlast]
  obtain ⟨j, rfl⟩ := Nat.exists_eq_add_of_le (show nDirect + 1 ≤ k by omega)
  have hj : j < nIndirect := Nat.lt_of_add_lt_add_left (Nat.not_le.mp hge)
  have hplace := Dinode.place_word (s.focus ip).data hw.type_ne' hj
  rw [View.place, hplace]
  change Option.bind ((s.focus ip).place ((s.icache ip).inum, nDirect)) _ = none
  rw [hlast, Option.bind_none]

/-- The inode has been stored with no addresses and no bytes, and its blocks are free. -/
structure Emptied (ip : Slot) (s s' : State P) : Prop where
  touch : Touch ip s s'
  fields : (s'.icache ip).d = { (s.icache ip).d with size := 0, addrs := 0 }
  dino : s'.view.dino = update s.view.dino (s.icache ip).inum (s'.icache ip).d
  data : s'.view.data = s.view.data
  owned : Owned s.sb s'.view
  logs : Logs (insert (s.sb.iblock (s.icache ip).inum) s.sb.bitmap) s s'

theorem Dinode.place_zero {d : Dinode} (h : d.addrs = 0) (data : ℕ → Block) (k : ℕ) :
    d.place data k = none := by
  by_cases ht : d.type = 0
  · exact place_of_free ht k
  have haddr (l : Fin (nDirect + 1)) : d.place data l = none := by
    rw [place_addr data ht, h]
    rfl
  by_cases hge : nPlaces ≤ k
  · exact place_of_ge hge
  by_cases hlt : k < nDirect + 1
  · exact haddr ⟨k, hlt⟩
  · obtain ⟨j, rfl⟩ := Nat.exists_eq_add_of_le (Nat.not_lt.mp hlt)
    have hj : j < nIndirect := Nat.lt_of_add_lt_add_left (Nat.not_le.mp hge)
    rw [place_word data ht hj, show d.place data nDirect = none from haddr (Fin.last nDirect),
      Option.bind_none]

theorem Truncating.store (h : Truncating ip s (range nPlaces) 0 t) (hw : Work s ip) :
    Wp E (do modifyInode ip fun d => { d with size := 0 }; iupdate ip)
      (fun _ t' => Emptied ip s t') t := by
  simp only [modifyInode, wp_bind, wp_modify]
  refine ((iupdate_focus (by exact h.touch.sb ▸ hw.ordered) ?_).and (iupdate_logs _ ip)).mono ?_
  · simp only [State.setInode_icache, update_self, State.setInode_sb, h.touch.inum,
      h.touch.sb, hw.inum_lt]
  rintro _ t' ⟨⟨hsame, hview⟩, hlogs⟩
  rw [focus_setInode, State.focus, h.touch.inum] at hview
  have hfields : (t'.icache ip).d = { (s.icache ip).d with size := 0, addrs := 0 } := by
    rw [hsame.icache, State.setInode_icache, update_self, h.fields]
  have hdino : t'.view.dino = update s.view.dino (s.icache ip).inum (t'.icache ip).d := by
    rw [hview, hfields, h.fields]
    simp only [View.setDino_dino, update_idem, h.dino]
  have hdata : t'.view.data = s.view.data := by
    rw [hview]
    exact h.data
  have hplace : t'.view.place =
      dropPlaces (s.focus ip).place (s.icache ip).inum (range nPlaces) := by
    funext p
    obtain ⟨j, k⟩ := p
    rw [View.place, hdino, hdata, dropPlaces]
    by_cases hj : j = (s.icache ip).inum
    · subst hj
      rw [update_self, Dinode.place_zero (by rw [hfields])]
      by_cases hk : k < nPlaces
      · rw [if_pos ⟨rfl, mem_range.mpr hk⟩]
      · rw [if_neg (by simp [hk])]
        exact (Dinode.place_of_ge (Nat.not_lt.mp hk)).symm
    · rw [if_neg (by simp [hj]), update_of_ne hj]
      exact (View.place_setDino_of_ne hj _ k).symm
  have hused : t'.view.used = t.view.used := by
    rw [hview]
    rfl
  refine ⟨(h.touch.trans (.setInode t ip _)).trans (.of_sameMem hsame), hfields, hdino, hdata, ?_,
    ?_⟩
  · exact ⟨by rw [hplace, hused]; exact h.releasing.ledger, hused ▸ h.releasing.low⟩
  · rw [State.setInode_icache, update_self, State.setInode_sb, h.touch.inum, h.touch.sb]
      at hlogs
    refine (h.logs.mono (Set.subset_insert _ _)).trans (.trans (.of_eq rfl) (hlogs.mono ?_))
    exact Set.singleton_subset_iff.mpr (Set.mem_insert _ _)

/-- `itrunc` gives back the blocks of the file, and stores the inode with no addresses and no
bytes. -/
theorem itrunc_spec (hw : Work s ip) : Wp E (itrunc ip) (fun _ t => Emptied ip s t) s := by
  rw [itrunc, wp_bind]
  refine (itruncDirect_spec hw).mono fun _ t ht => ?_
  have hlast : (t.icache ip).d.addrs (Fin.last nDirect) =
      (s.icache ip).d.addrs (Fin.last nDirect) := by
    rw [ht.fields]
    exact if_neg (t := (0 : Word)) (Nat.lt_irrefl nDirect)
  simp only [wp_bind, wp_get, hlast]
  by_cases hz : (s.icache ip).d.addrs (Fin.last nDirect) = 0
  · rw [if_neg (not_not.mpr hz)]
    refine (ht.all (fun k _ hk => hw.place_eq_none hz ?_) (clearAddrs_nDirect hz)).store hw
    exact Nat.not_lt.mp (fun h => hk (mem_range.mpr h))
  · have hc : (s.focus ip).place ((s.icache ip).inum, nDirect) =
        some ((s.icache ip).d.addrs (Fin.last nDirect)).toNat := by
      have := hw.place_addr (Fin.last nDirect)
      rwa [blockOf_of_ne hz] at this
    have hbp : t.disk ((s.icache ip).d.addrs (Fin.last nDirect)).toNat =
        s.disk ((s.icache ip).d.addrs (Fin.last nDirect)).toNat := by
      have hdata := hw.owned.isData hc
      rw [← view_data hdata, ← view_data (s := t) (ht.touch.sb ▸ hdata), ht.data]
    simp only [if_pos hz, wp_bind, bread, wp_get, wp_pure, hbp]
    refine (itruncIndirect_spec hw ht (fun k hk => mem_range.mp hk) hc).mono
      fun _ t₂ ht₂ => ?_
    have hnot : nDirect ∉ range nDirect ∪
        (range nIndirect).map (addLeftEmbedding (nDirect + 1)) := by
      simp only [mem_union, mem_map, mem_range, addLeftEmbedding_apply]
      omega
    refine (ht₂.bfree hw hnot hc).mono fun _ t₃ ht₃ => (ht₃.setAddr _).mono fun _ t₄ ht₄ => ?_
    rw [← wp_bind]
    refine (ht₄.all (fun k hk hnot => absurd ?_ hnot) (update_clearAddrs _)).store hw
    simp only [mem_insert, mem_union, mem_map, mem_range, addLeftEmbedding_apply]
    by_cases hlt : k < nDirect
    · exact .inr (.inl hlt)
    by_cases heq : k = nDirect
    · exact .inl heq
    · obtain ⟨j, rfl⟩ := Nat.exists_eq_add_of_le (show nDirect + 1 ≤ k by omega)
      exact .inr (.inr ⟨j, Nat.lt_of_add_lt_add_left hk, rfl⟩)

/-! ### Freeing an inode -/

structure Freed (ip : Slot) (s s' : State P) : Prop where
  sb : s'.sb = s.sb
  ftable : s'.ftable = s.ftable
  proc : s'.proc = s.proc
  icache : s'.icache = update s.icache ip
    { s.icache ip with d := (s'.icache ip).d, valid := false }
  type_eq : (s'.view.dino (s.icache ip).inum).type = 0
  dino_of_ne : ∀ j, j ≠ (s.icache ip).inum → s'.view.dino j = s.view.dino j
  data : s'.view.data = s.view.data
  disk : DiskOk s'
  logs : Logs (insert (s.sb.iblock (s.icache ip).inum) s.sb.bitmap) s s'

theorem Freed.num (h : Freed ip s s') (jp : Slot) : (s'.icache jp).inum = (s.icache jp).inum := by
  rw [h.icache]
  by_cases hj : jp = ip
  · rw [hj, update_self]
  · rw [update_of_ne hj]

/-- What `iputFree` tests: the inode is known to have no links, and no one else refers to it. -/
def LastPut (s : State P) (ip : Slot) : Prop :=
  (s.icache ip).valid = true ∧ (s.icache ip).d.nlink = 0 ∧ (s.icache ip).ref = 1

instance (s : State P) (ip : Slot) : Decidable (LastPut s ip) :=
  inferInstanceAs (Decidable (_ ∧ _))

theorem DiskOk.of_dino_ne {i : ℕ} (h : DiskOk s) (hsb : s'.sb = s.sb)
    (hne : ∀ j, j ≠ i → s'.view.dino j = s.view.dino j) (hdata : s'.view.data = s.view.data)
    (howned : Owned s.sb s'.view) (hfree : (s'.view.dino i).type = 0) : DiskOk s' where
  ordered := hsb ▸ h.ordered
  owned := hsb ▸ howned
  mapped j ht hdev := by
    have hj : j ≠ i := by
      rintro rfl
      exact ht hfree
    rw [hne j hj] at ht hdev
    have hold : (fun k => s'.view.place (j, k)) = fun k => s.view.place (j, k) := by
      funext k
      rw [View.place, View.place, hne j hj, hdata]
    rw [hne j hj, hold]
    exact h.mapped j ht hdev

theorem Freed.of_emptied {t' : State P} (h : DiskOk s) (ht : Emptied ip s t) (hsame : SameMem
      (t.setInode ip { t.icache ip with d := { (t.icache ip).d with type := 0 } }) t')
    (hview : t'.view =
      (t.setInode ip { t.icache ip with d := { (t.icache ip).d with type := 0 } }).focus ip)
    (hlogs : Logs {t.sb.iblock (t.icache ip).inum} t t') :
    Freed ip s (t'.setInode ip { t'.icache ip with valid := false }) := by
  rw [focus_setInode, State.focus, ht.touch.inum] at hview
  have hdino : t'.view.dino = update s.view.dino (s.icache ip).inum
      { (t.icache ip).d with type := 0 } := by
    rw [hview]
    simp only [View.setDino_dino, update_idem, ht.dino]
  have htype : (t'.view.dino (s.icache ip).inum).type = 0 := by
    rw [hdino, update_self]
  have hne (j : ℕ) (hj : j ≠ (s.icache ip).inum) : t'.view.dino j = s.view.dino j := by
    rw [hdino, update_of_ne hj]
  have hdata : t'.view.data = s.view.data := by
    rw [hview]
    exact ht.data
  have howned : Owned s.sb t'.view := by
    refine ht.owned.congr ?_ (by rw [hview]; rfl)
    funext p
    obtain ⟨j, k⟩ := p
    rw [View.place, View.place, hdata, ht.data]
    by_cases hj : j = (s.icache ip).inum
    · subst hj
      rw [Dinode.place_of_free htype, ht.dino, update_self, Dinode.place_zero (by rw [ht.fields])]
    · rw [hne j hj, ht.dino, update_of_ne hj]
  have hsb : t'.sb = s.sb := hsame.sb.trans ht.touch.sb
  refine ⟨hsb, hsame.ftable.trans ht.touch.ftable, hsame.proc.trans ht.touch.proc, ?_, htype, hne,
    hdata, ?_, ?_⟩
  · rw [State.setInode_icache, update_self, hsame.icache, State.setInode_icache,
      update_self, update_idem, ht.touch.self, ht.touch.icache,
      update_idem]
  · obtain ⟨h1, h2, h3⟩ := h.of_dino_ne hsb hne hdata howned htype
    exact ⟨h1, h2, h3⟩
  · rw [ht.touch.inum, ht.touch.sb] at hlogs
    refine ht.logs.trans (.trans (hlogs.mono ?_) (.of_eq rfl))
    exact Set.singleton_subset_iff.mpr (Set.mem_insert _ _)

/-- The sleep-lock section of `iput` frees the inode if it is the last reference to an inode
without links, and otherwise does nothing. -/
theorem iputFree_spec (h : DiskOk s) (hl : (s.icache ip).valid = true → Loaded s ip) :
    Wp E (iputFree ip) (fun _ s' => if LastPut s ip then Freed ip s s' else s' = s) s := by
  simp only [iputFree, wp_bind, wp_get]
  by_cases hvalid : (s.icache ip).valid = true ∧ (s.icache ip).d.nlink = 0
  · by_cases href : (s.icache ip).ref = 1
    · have hload := hl hvalid.1
      have hw : Work s ip :=
        ⟨h.ordered, hload.inum_lt, hload.type_ne, hload.focus.symm ▸ h.owned⟩
      have hlast : LastPut s ip := ⟨hvalid.1, hvalid.2, href⟩
      rw [if_pos hvalid, if_pos href, wp_bind]
      refine (itrunc_spec hw).mono fun _ t ht => ?_
      simp only [modifyInode, wp_bind, wp_modify, hlast, ↓reduceIte]
      refine ((iupdate_focus (by exact ht.touch.sb ▸ hw.ordered) ?_).and
        (iupdate_logs _ ip)).mono ?_
      · simp only [State.setInode_icache, update_self, State.setInode_sb, ht.touch.inum,
          ht.touch.sb, hw.inum_lt]
      rintro _ t' ⟨⟨hsame, hview⟩, hlogs⟩
      rw [State.setInode_icache, update_self] at hlogs
      exact .of_emptied h ht hsame hview (.trans (.of_eq rfl) hlogs)
    · rw [if_pos hvalid, if_neg href]
      simp [LastPut, href]
  · have hlast : ¬ LastPut s ip := fun h => hvalid ⟨h.1, h.2.1⟩
    rw [if_neg hvalid, wp_pure, if_neg hlast]

end Dave.Fs
